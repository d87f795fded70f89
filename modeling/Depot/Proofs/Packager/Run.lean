import Depot.Packager
import Depot.Proofs.Digest.Grid
import Depot.Proofs.NameMap
import Depot.Proofs.Outcome
import Depot.Proofs.Workspace.History
import Depot.Sample
import Mathlib.Algebra.GroupWithZero.Nat

set_option autoImplicit false

namespace Depot.Packager

def Job.changing (job : Job) (source : Source) : Job :=
  { job with scope := .changed source }

def Job.everything (job : Job) (workspace : Workspace) : Job :=
  { job with workspace, scope := .everything }

variable {job : Job} {packager : Packager} {disk : Disk} {artifact : Artifact}

@[simp]
theorem config_doubt : (packager.doubt artifact).config = packager.config := by
  unfold doubt
  split <;> rfl

@[simp]
theorem outputs_doubt : (packager.doubt artifact).outputs = packager.outputs := by
  unfold doubt
  split <;> rfl

@[simp]
theorem current?_store (entries : List Entry) :
    (packager.store artifact entries).current? artifact = some entries := by
  simp [current?, store, NameMap.find?_insert]

theorem current?_congr {other : Packager}
    (same : other.outputs.find? artifact.name = packager.outputs.find? artifact.name) :
    other.current? artifact = packager.current? artifact := by
  rw [current?, same, current?]

/-- The output of an artifact is the one from its plan if it has the revision of the plan. -/
theorem current?_eq_some {entries : List Entry} :
    packager.current? artifact = some entries ↔
      packager.outputs.find? artifact.name = some ⟨artifact.revision, entries⟩ := by
  unfold current?
  split
  · next output found =>
    obtain ⟨revision, held⟩ := output
    rw [found]
    simp
  · next absent => simp [absent]

theorem output?_of_current? {entries : List Entry}
    (current : packager.current? artifact = some entries) :
    packager.output? artifact.name = some entries := by
  rw [output?, current?_eq_some.mp current]
  rfl

/-- What is told of an artifact that got the given entries in place of those from before. -/
def told (job : Job) (artifact : Artifact) (previous : Option (List Entry)) (entries : List Entry)
    (effort : Effort) (written : Nat) : Report :=
  if previous.any fun previous =>
      Entry.listDigest job.hash previous = Entry.listDigest job.hash entries then
    { updated := [], unchanged := [artifact.name], effort, written }
  else { updated := [artifact.name], unchanged := [], effort, written }

/-- How an update can end: the output cannot be built, or there is none and nothing is to be built
for a change, or the output is built and the disk refuses or takes it. -/
inductive Ends (job : Job) (packager : Packager) (artifact : Artifact) :
    Disk → Except PackagerFault Report × Packager × Disk → Prop where
  | unbuilt {disk : Disk} {fault : BuildFault}
    (failed : (job.assembler packager.config.compression artifact.name).output
      job.scope artifact.plan
      (packager.current? artifact) = .error fault) :
    Ends job packager artifact disk (.error (.build fault), packager, disk)
  | nothing {disk : Disk} {effort : Effort} (absent : packager.current? artifact = none)
    (change : job.scope.isChange = true)
    (built : (job.assembler packager.config.compression artifact.name).output
      job.scope artifact.plan
      none = .ok ([], effort)) :
    Ends job packager artifact disk (.ok .none, packager, disk)
  | refused {disk disk' : Disk} {entries : List Entry} {effort : Effort} {fault : Disk.Fault}
    (built : (job.assembler packager.config.compression artifact.name).output
      job.scope artifact.plan
      (packager.current? artifact) = .ok (entries, effort))
    (published : packager.config.outputDirectory ≠ none) :
    Ends job packager artifact disk (.error (.disk fault), packager.doubt artifact, disk')
  | stored {disk disk' : Disk} {entries : List Entry} {effort : Effort} (written : Nat)
    (built : (job.assembler packager.config.compression artifact.name).output
      job.scope artifact.plan
      (packager.current? artifact) = .ok (entries, effort))
    (needed : packager.current? artifact = none → entries = [] → job.scope.isChange = false) :
    Ends job packager artifact disk
      (.ok (told job artifact (packager.current? artifact) entries effort written),
        packager.store artifact entries, disk')

theorem update_ends (job : Job) (packager : Packager) (disk : Disk) (artifact : Artifact) :
    Ends job packager artifact disk (update job packager disk artifact) := by
  cases built : (job.assembler packager.config.compression artifact.name).output job.scope
      artifact.plan (packager.current? artifact) with
  | error fault =>
    simp only [update, built]
    exact .unbuilt built
  | ok result =>
    obtain ⟨entries, effort⟩ := result
    simp only [update, built]
    split
    · next skipped =>
      obtain ⟨absent, empty, change⟩ := skipped
      have none : packager.current? artifact = none := Option.isNone_iff_eq_none.mp absent
      rw [none, List.isEmpty_iff.mp empty] at built
      exact .nothing none change built
    · next needed =>
      split
      · next fault disk' published =>
        refine .refused built fun none => ?_
        simp [publish, none, pure, EStateM.pure] at published
      · next written disk' _ =>
        refine .stored written built fun absent empty => ?_
        simpa [absent, empty] using needed

/-- An update stores the output that was built, unless the disk refuses it. -/
theorem update_built {entries : List Entry} {effort : Effort}
    (built : (job.assembler packager.config.compression artifact.name).output
      job.scope artifact.plan
      (packager.current? artifact) = .ok (entries, effort))
    (needed : (packager.current? artifact).isSome ∨ job.scope = .everything) :
    (∃ report disk', update job packager disk artifact =
        (.ok report, packager.store artifact entries, disk')) ∨
      packager.config.outputDirectory ≠ none ∧
        ∃ fault disk', update job packager disk artifact =
          (.error (.disk fault), packager.doubt artifact, disk') := by
  have ends := update_ends job packager disk artifact
  generalize update job packager disk artifact = outcome at ends ⊢
  cases ends with
  | unbuilt failed => cases built.symm.trans failed
  | nothing absent change _ =>
    rcases needed with present | everything
    · rw [absent] at present
      cases present
    · rw [everything] at change
      cases change
  | refused _ published => exact .inr ⟨published, _, _, rfl⟩
  | stored written built' _ =>
    cases built.symm.trans built'
    exact .inl ⟨_, _, rfl⟩

/-- An update of everything that succeeds stores what was built. -/
theorem update_everything (everything : job.scope = .everything) {report : Report}
    (succeeded : (update job packager disk artifact).1 = .ok report) :
    ∃ entries effort,
      (job.assembler packager.config.compression artifact.name).output .everything artifact.plan
        (packager.current? artifact) = .ok (entries, effort) ∧
      (update job packager disk artifact).2.1 = packager.store artifact entries := by
  rw [← everything]
  have ends := update_ends job packager disk artifact
  generalize update job packager disk artifact = outcome at succeeded ends ⊢
  cases ends with
  | unbuilt _ => cases succeeded
  | nothing _ change _ =>
    rw [everything] at change
    cases change
  | refused _ _ => cases succeeded
  | stored _ built _ => exact ⟨_, _, built, rfl⟩

/-- What an update that succeeds makes of the output from before, and what it tells: it builds the
output, or it finds that there is none and that nothing is to be built for a change. -/
inductive Makes (job : Job) (compression : Archive.Compression) (artifact : Artifact) :
    Option (List Entry) → Option (List Entry) → Report → Prop where
  | nothing {effort : Effort} (change : job.scope.isChange = true)
    (built : (job.assembler compression artifact.name).output job.scope artifact.plan none =
      .ok ([], effort)) : Makes job compression artifact none none .none
  | output {previous : Option (List Entry)} {entries : List Entry} {effort : Effort} (written : Nat)
    (needed : previous = none → entries = [] → job.scope.isChange = false)
    (built : (job.assembler compression artifact.name).output job.scope artifact.plan previous =
      .ok (entries, effort)) :
    Makes job compression artifact previous (some entries)
      (told job artifact previous entries effort written)

theorem update_makes {report : Report}
    (succeeded : (update job packager disk artifact).1 = .ok report) :
    Makes job packager.config.compression artifact (packager.current? artifact)
        ((update job packager disk artifact).2.1.current? artifact) report ∧
      ((update job packager disk artifact).2.1 = packager ∧ packager.current? artifact = none ∨
        ∃ entries, (update job packager disk artifact).2.1 = packager.store artifact entries) := by
  have ends := update_ends job packager disk artifact
  generalize update job packager disk artifact = outcome at succeeded ends ⊢
  cases ends with
  | unbuilt _ => cases succeeded
  | nothing absent change built =>
    cases succeeded
    rw [absent]
    exact ⟨.nothing change built, .inl ⟨rfl, rfl⟩⟩
  | refused _ _ => cases succeeded
  | stored written built needed =>
    cases succeeded
    rw [current?_store]
    exact ⟨.output written needed built, .inr ⟨_, rfl⟩⟩

/-- An update leaves the output as it was or stores the one that is built. -/
theorem update_outputs (job : Job) (packager : Packager) (disk : Disk) (artifact : Artifact) :
    (update job packager disk artifact).2.1.outputs.find? artifact.name =
        packager.outputs.find? artifact.name ∨
      ∃ entries effort,
        (job.assembler packager.config.compression artifact.name).output job.scope artifact.plan
          (packager.current? artifact) = .ok (entries, effort) ∧
        (update job packager disk artifact).2.1.outputs.find? artifact.name =
          some ⟨artifact.revision, entries⟩ := by
  have ends := update_ends job packager disk artifact
  generalize update job packager disk artifact = outcome at ends ⊢
  cases ends with
  | unbuilt _ => exact .inl rfl
  | nothing _ _ _ => exact .inl rfl
  | refused _ _ => exact .inl (by rw [outputs_doubt])
  | stored _ built _ => exact .inr ⟨_, _, built, by simp [store, NameMap.find?_insert]⟩

/-- An update leaves everything else alone. -/
theorem update_frame (job : Job) (packager : Packager) (disk : Disk) (artifact : Artifact) :
    (update job packager disk artifact).2.1.config = packager.config ∧
      ∀ name, name ≠ artifact.name →
        (update job packager disk artifact).2.1.outputs.find? name =
          packager.outputs.find? name := by
  have ends := update_ends job packager disk artifact
  generalize update job packager disk artifact = outcome at ends ⊢
  cases ends with
  | unbuilt _ => exact ⟨rfl, fun _ _ => rfl⟩
  | nothing _ _ _ => exact ⟨rfl, fun _ _ => rfl⟩
  | refused _ _ => exact ⟨config_doubt, fun _ _ => by rw [outputs_doubt]⟩
  | stored _ _ _ =>
    refine ⟨rfl, fun name other => ?_⟩
    simp [store, NameMap.find?_insert, other]

/-- An artifact is updated with some result from the output that it has before, whatever happens to
the others. -/
def UpdatedAlone (job : Job) (before after : Packager) (artifact : Artifact)
    (result : Except PackagerFault Report) : Prop :=
  ∃ packager disk, packager.config = before.config ∧
    packager.outputs.find? artifact.name = before.outputs.find? artifact.name ∧
    (update job packager disk artifact).1 = result ∧
    after.outputs.find? artifact.name =
      (update job packager disk artifact).2.1.outputs.find? artifact.name

theorem updateEach_alone {artifacts : List Artifact}
    (distinct : (artifacts.map Artifact.name).Nodup) (packager : Packager) (disk : Disk) :
    (updateEach job packager disk artifacts).2.1.config = packager.config ∧
      (∀ name, name ∉ artifacts.map Artifact.name →
        (updateEach job packager disk artifacts).2.1.outputs.find? name =
          packager.outputs.find? name) ∧
      List.Forall₂ (UpdatedAlone job packager (updateEach job packager disk artifacts).2.1)
        artifacts
        (updateEach job packager disk artifacts).1 := by
  induction artifacts generalizing packager disk with
  | nil => exact ⟨rfl, fun _ _ => rfl, .nil⟩
  | cons artifact rest ih =>
    obtain ⟨fresh, distinct⟩ := List.nodup_cons.mp distinct
    obtain ⟨config, frame⟩ := update_frame job packager disk artifact
    obtain ⟨configRest, frameRest, each⟩ := ih distinct (update job packager disk artifact).2.1
      (update job packager disk artifact).2.2
    simp only [updateEach]
    refine ⟨configRest.trans config, fun name absent => ?_, .cons ?_ ?_⟩
    · simp only [List.map_cons, List.mem_cons, not_or] at absent
      rw [frameRest name absent.2, frame name absent.1]
    · exact ⟨packager, disk, rfl, rfl, rfl, frameRest artifact.name fresh⟩
    · have apart : ∀ other ∈ rest, other.name ≠ artifact.name := fun other present same =>
        fresh (same ▸ List.mem_map_of_mem present)
      refine ((List.forall₂_and_left _ _).mpr ⟨apart, each⟩).imp ?_
      rintro other result ⟨unequal, packager', disk', config', same, updated⟩
      exact ⟨packager', disk', config'.trans config, same.trans (frame other.name unequal), updated⟩

theorem summarize_eq_ok {results : List (Except PackagerFault Report)} :
    (∃ report, summarize results = .ok report) ↔
      ∀ result ∈ results, ∃ report, result = .ok report := by
  induction results with
  | nil => simp [summarize]
  | cons result rest ih =>
    cases result with
    | error fault => simp [summarize]
    | ok report => simp [summarize, map_ok_iff, ← ih]

/-- The summary of updates that succeed with just some artifacts. -/
theorem summarize_iff {holds : Artifact → Prop} {artifacts : List Artifact}
    {results : List (Except PackagerFault Report)}
    (each : List.Forall₂ (fun artifact result => (∃ report, result = .ok report) ↔ holds artifact)
      artifacts results) :
    (∃ report, summarize results = .ok report) ↔ ∀ artifact ∈ artifacts, holds artifact := by
  rw [summarize_eq_ok]
  constructor
  · intro all artifact registered
    obtain ⟨result, present, succeeds⟩ := exists_of_mem_left each registered
    exact succeeds.mp (all result present)
  · intro all result present
    obtain ⟨artifact, registered, succeeds⟩ := exists_of_mem_right each present
    exact succeeds.mpr (all artifact registered)

theorem summarize_eq_error {results : List (Except PackagerFault Report)} {fault : PackagerFault}
    (failed : summarize results = .error fault) : .error fault ∈ results := by
  induction results with
  | nil => cases failed
  | cons result rest ih =>
    cases result with
    | error first =>
      cases failed
      exact List.mem_cons_self
    | ok report =>
      refine List.mem_cons_of_mem _ (ih ?_)
      unfold summarize at failed
      cases later : summarize rest with
      | error other =>
        rw [later] at failed
        cases failed
        rfl
      | ok more =>
        rw [later] at failed
        cases failed

theorem find?_retain (registry : Registry) (name : String) :
    (packager.retain registry).outputs.find? name =
      if (registry.find? name).isSome then packager.outputs.find? name else none :=
  NameMap.find?_filter _ (fun name => (registry.find? name).isSome) name

/-- A run updates each registered artifact alone and forgets all others. -/
theorem run_alone (job : Job) (packager : Packager) (disk : Disk) :
    ∃ results, (run job packager disk).1 = summarize results ∧
      List.Forall₂ (UpdatedAlone job packager (run job packager disk).2.1)
        job.registry.artifacts.values results ∧
      (run job packager disk).2.1.config = packager.config ∧
      ∀ name, job.registry.find? name = none →
        (run job packager disk).2.1.outputs.find? name = none := by
  obtain ⟨config, _, each⟩ := updateEach_alone job.registry.names_nodup packager disk
  have retained (name : String) : (run job packager disk).2.1.outputs.find? name =
      if (job.registry.find? name).isSome then
        (updateEach job packager disk job.registry.artifacts.values).2.1.outputs.find? name
      else none := find?_retain job.registry name
  refine ⟨_, rfl, ?_, config, fun name absent => ?_⟩
  · have registered : ∀ artifact ∈ job.registry.artifacts.values,
        artifact ∈ job.registry.artifacts.values := fun _ present => present
    refine ((List.forall₂_and_left _ _).mpr ⟨registered, each⟩).imp ?_
    rintro artifact result ⟨present, packager', disk', config', same, updated, after⟩
    have found := Registry.find?_eq_some.mpr ⟨present, rfl⟩
    refine ⟨packager', disk', config', same, updated, ?_⟩
    rw [retained, found]
    exact after
  · rw [retained, absent]
    rfl

/-- An output after a run was there before, or it was built for an artifact that is registered. -/
theorem run_outputs (job : Job) (packager : Packager) (disk : Disk) {name : String}
    {output : Output} (found : (run job packager disk).2.1.outputs.find? name = some output) :
    packager.outputs.find? name = some output ∨
      ∃ artifact effort, job.registry.find? name = some artifact ∧
        output.revision = artifact.revision ∧
        (job.assembler packager.config.compression name).output job.scope artifact.plan
          (packager.current? artifact) = .ok (output.entries, effort) := by
  obtain ⟨results, _, each, _, others⟩ := run_alone job packager disk
  cases known : job.registry.find? name with
  | none =>
    rw [others name known] at found
    cases found
  | some artifact =>
    obtain ⟨registered, rfl⟩ := Registry.find?_eq_some.mp known
    obtain ⟨result, _, packager', disk', config, same, _, after⟩ :=
      exists_of_mem_left each registered
    rcases update_outputs job packager' disk' artifact with kept | ⟨entries, effort, built, stored⟩
    · rw [after, kept, same] at found
      exact .inl found
    · rw [config, current?_congr same] at built
      rw [after, stored] at found
      cases found
      exact .inr ⟨artifact, effort, rfl, rfl, built⟩

theorem run_forgets (job : Job) (packager : Packager) (disk : Disk) {name : String}
    (absent : job.registry.find? name = none) :
    (run job packager disk).2.1.output? name = none := by
  obtain ⟨_, _, _, _, others⟩ := run_alone job packager disk
  rw [output?, others name absent]
  rfl

/-- Packagers that have the same for all registered artifacts and nothing else have the same. -/
theorem output?_eq_output? {registry : Registry} {other : Packager}
    (registered : ∀ artifact ∈ registry.artifacts.values, ∃ entries,
      packager.current? artifact = some entries ∧ other.current? artifact = some entries)
    (forgets : ∀ name, registry.find? name = none →
      packager.output? name = none ∧ other.output? name = none) (name : String) :
    packager.output? name = other.output? name := by
  cases known : registry.find? name with
  | none => rw [(forgets name known).1, (forgets name known).2]
  | some artifact =>
    obtain ⟨held, rfl⟩ := Registry.find?_eq_some.mp known
    obtain ⟨entries, here, there⟩ := registered artifact held
    rw [output?_of_current? here, output?_of_current? there]

theorem UpdatedAlone.makes {before after : Packager} {report : Report}
    (alone : UpdatedAlone job before after artifact (.ok report)) :
    Makes job before.config.compression artifact (before.current? artifact)
      (after.current? artifact) report := by
  obtain ⟨packager, disk, config, same, updated, stored⟩ := alone
  rw [current?_congr stored, ← current?_congr same, ← config]
  exact (update_makes updated).1

def total (reports : List Report) : Effort :=
  (reports.map Report.effort).foldr (· + ·) .none

/-- What is counted adds up over the updates. -/
theorem count_total (count : Effort → Nat) (none : count .none = 0)
    (add : ∀ left right, count (left + right) = count left + count right) (reports : List Report) :
    count (total reports) = (reports.map fun each => count each.effort).sum := by
  induction reports with
  | nil => exact none
  | cons report rest ih => exact (add _ _).trans (congrArg (count report.effort + ·) ih)

theorem count_total_eq_zero (count : Effort → Nat) (none : count .none = 0)
    (add : ∀ left right, count (left + right) = count left + count right) {reports : List Report} :
    count (total reports) = 0 ↔ ∀ each ∈ reports, count each.effort = 0 := by
  rw [count_total count none add, List.sum_eq_zero_iff_forall_eq_nat, List.forall_mem_map]

theorem summarize_ok {results : List (Except PackagerFault Report)} {report : Report}
    (succeeded : summarize results = .ok report) :
    ∃ reports : List Report, results = reports.map .ok ∧
      report.updated = reports.flatMap Report.updated ∧
      report.unchanged = reports.flatMap Report.unchanged ∧ report.effort = total reports := by
  induction results generalizing report with
  | nil =>
    cases succeeded
    exact ⟨[], rfl, rfl, rfl, rfl⟩
  | cons result rest ih =>
    cases result with
    | error fault => cases succeeded
    | ok first =>
      obtain ⟨later, summary, rfl⟩ := map_ok_iff.mp succeeded
      obtain ⟨reports, rfl, updated, unchanged, effort⟩ := ih summary
      refine ⟨first :: reports, rfl, ?_, ?_, ?_⟩
      · rw [Report.append, updated, List.flatMap_cons]
      · rw [Report.append, unchanged, List.flatMap_cons]
      · exact congrArg (first.effort + ·) effort

/-- The report of a run tells for each artifact what was done. -/
theorem run_report {report : Report} (succeeded : (run job packager disk).1 = .ok report) :
    ∃ reports : List Report, List.Forall₂
        (fun artifact each => UpdatedAlone job packager (run job packager disk).2.1
          artifact (.ok each))
        job.registry.artifacts.values reports ∧
      report.updated = reports.flatMap Report.updated ∧
      report.unchanged = reports.flatMap Report.unchanged ∧ report.effort = total reports := by
  obtain ⟨results, summary, each, _⟩ := run_alone job packager disk
  obtain ⟨reports, rfl, facts⟩ := summarize_ok (summary.symm.trans succeeded)
  exact ⟨reports, List.forall₂_map_right_iff.mp each, facts⟩

/-- No other artifact is told of. -/
theorem Makes.only {compression : Archive.Compression} {before after : Option (List Entry)}
    {report : Report} (makes : Makes job compression artifact before after report) :
    report.updated ⊆ [artifact.name] ∧ report.unchanged ⊆ [artifact.name] := by
  cases makes with
  | nothing _ _ => exact ⟨List.nil_subset _, List.nil_subset _⟩
  | output _ _ _ =>
    unfold told
    split
    · exact ⟨List.nil_subset _, List.Subset.refl _⟩
    · exact ⟨List.Subset.refl _, List.nil_subset _⟩

/-- The report of a run lists an artifact just as its own update does. -/
theorem run_own {report : Report} (succeeded : (run job packager disk).1 = .ok report)
    (registered : artifact ∈ job.registry.artifacts.values) :
    ∃ own, UpdatedAlone job packager (run job packager disk).2.1 artifact (.ok own) ∧
      (artifact.name ∈ report.updated ↔ artifact.name ∈ own.updated) ∧
      (artifact.name ∈ report.unchanged ↔ artifact.name ∈ own.unchanged) := by
  obtain ⟨reports, each, updated, unchanged, _⟩ := run_report succeeded
  obtain ⟨own, alone, tells⟩ := exists_own each job.registry.names_nodup registered
  rw [updated, unchanged]
  exact ⟨own, alone, tells _ fun _ _ other => other.makes.only.1,
    tells _ fun _ _ other => other.makes.only.2⟩

theorem Makes.built {compression : Archive.Compression} {previous : Option (List Entry)}
    {entries : List Entry} {report : Report}
    (makes : Makes job compression artifact previous (some entries) report) :
    ∃ effort, (job.assembler compression artifact.name).output job.scope artifact.plan previous =
      .ok (entries, effort) := by
  cases makes with
  | output _ _ built => exact ⟨_, built⟩

theorem Makes.of_none {compression : Archive.Compression} {previous : Option (List Entry)}
    {report : Report} (makes : Makes job compression artifact previous none report) :
    previous = none ∧ job.scope.isChange = true ∧
      ∃ effort, (job.assembler compression artifact.name).output job.scope artifact.plan none =
        .ok ([], effort) := by
  cases makes with
  | nothing change built => exact ⟨rfl, change, _, built⟩

theorem Makes.of_unchanged {compression : Archive.Compression} {previous entries : List Entry}
    {report : Report} (makes : Makes job compression artifact (some previous) (some entries) report)
    (same : Entry.listDigest job.hash previous = Entry.listDigest job.hash entries) :
    report.updated = [] ∧ report.unchanged = [artifact.name] := by
  cases makes with
  | output _ _ _ => simp [told, same]

end Depot.Packager

namespace Depot.Sample

def single (plan : Plan) : Packager.Job where
  workspace := []
  registry := (Registry.empty.replace "app" plan).2
  hash := Digest.blake3
  scope := .everything

def filing : List Request :=
  [⟨0, .createFile "left" text⟩, ⟨0, .createFile "right" empty⟩]

def pair : Plan :=
  [.leaf (.file ⟨0, 1⟩), .leaf (.file ⟨0, 2⟩)]

end Depot.Sample

import Depot.Proofs.Build.Repeat
import Depot.Proofs.Packager.Run

set_option autoImplicit false

namespace Depot.Packager

variable {job : Job} {packager : Packager} {disk : Disk} {artifact : Artifact} {report : Report}

/-- A run succeeds, leaves all outputs as they are, lists no artifact as updated and writes no
archive. -/
def Rests (job : Job) (packager : Packager) (disk : Disk) : Prop :=
  ∃ report after disk', run job packager disk = (.ok report, after, disk') ∧
    (∀ name, after.output? name = packager.output? name) ∧
    report.updated = [] ∧ report.effort.encoded = 0

theorem update_unsynced (succeeded : (update job packager disk artifact).1 = .ok report) :
    (update job packager disk artifact).2.1.unsynced ⊆ packager.unsynced ∧
      ∀ entries, (update job packager disk artifact).2.1.current? artifact = some entries →
        artifact.name ∉ (update job packager disk artifact).2.1.unsynced := by
  rcases (update_makes succeeded).2 with ⟨kept, absent⟩ | ⟨entries, stored⟩
  · rw [kept]
    refine ⟨List.Subset.refl _, fun entries current => ?_⟩
    rw [absent] at current
    cases current
  · rw [stored]
    refine ⟨List.filter_subset_self _, fun _ _ held => ?_⟩
    simpa using (List.mem_filter.mp held).2

/-- After updates that all succeed, every artifact with an output is published, by induction on the
artifacts: later updates do not cast doubt on earlier ones. -/
theorem updateEach_unsynced {artifacts : List Artifact}
    (distinct : (artifacts.map Artifact.name).Nodup)
    (succeeded : ∀ result ∈ (updateEach job packager disk artifacts).1, ∃ report,
      result = .ok report) :
    (updateEach job packager disk artifacts).2.1.unsynced ⊆ packager.unsynced ∧
      ∀ artifact ∈ artifacts, ∀ entries,
        (updateEach job packager disk artifacts).2.1.current? artifact = some entries →
        artifact.name ∉ (updateEach job packager disk artifacts).2.1.unsynced := by
  induction artifacts generalizing packager disk with
  | nil => exact ⟨List.Subset.refl _, fun _ present => nomatch present⟩
  | cons first rest ih =>
    obtain ⟨fresh, distinct⟩ := List.nodup_cons.mp distinct
    obtain ⟨report, ok⟩ := succeeded _ List.mem_cons_self
    obtain ⟨subset, synced⟩ := update_unsynced ok
    obtain ⟨subsetRest, syncedRest⟩ := @ih (update job packager disk first).2.1
      (update job packager disk first).2.2 distinct
      fun result present => succeeded result (List.mem_cons_of_mem _ present)
    obtain ⟨_, frame, _⟩ := @updateEach_alone job rest distinct
      (update job packager disk first).2.1 (update job packager disk first).2.2
    refine ⟨List.Subset.trans subsetRest subset, fun artifact present entries current => ?_⟩
    rcases List.mem_cons.mp present with rfl | later
    · intro held
      have kept := current?_congr (frame artifact.name fresh)
      exact synced entries (kept.symm.trans current) (subsetRest held)
    · exact syncedRest artifact later entries current

theorem run_unsynced (succeeded : (run job packager disk).1 = .ok report)
    (registered : artifact ∈ job.registry.artifacts.values) {entries : List Entry}
    (current : (run job packager disk).2.1.current? artifact = some entries) :
    artifact.name ∉ (run job packager disk).2.1.unsynced := by
  have each := summarize_eq_ok.mp ⟨report, succeeded⟩
  obtain ⟨_, synced⟩ := updateEach_unsynced job.registry.names_nodup each
  have found := Registry.find?_eq_some.mpr ⟨registered, rfl⟩
  have kept : (run job packager disk).2.1.outputs.find? artifact.name =
      (updateEach job packager disk job.registry.artifacts.values).2.1.outputs.find?
        artifact.name := by
    rw [run, find?_retain, found]
    rfl
  intro held
  exact synced artifact registered entries ((current?_congr kept).symm.trans current)
    (List.mem_filter.mp held).1

/-- The output of an artifact is what the next update builds from it, without an archive, and it is
published; or it has no output, and there is nothing to build. -/
def Settles (job : Job) (packager : Packager) (artifact : Artifact) : Prop :=
  let assembler := job.assembler packager.config.compression artifact.name
  (∃ entries effort, packager.current? artifact = some entries ∧ artifact.name ∉ packager.unsynced ∧
    assembler.output job.scope artifact.plan (some entries) = .ok (entries, effort) ∧
    effort.encoded = 0) ∨
  ∃ effort, packager.current? artifact = none ∧ job.scope.isChange = true ∧
    assembler.output job.scope artifact.plan none = .ok ([], effort)

theorem Settles.congr {other : Packager} (settles : Settles job packager artifact)
    (config : other.config = packager.config)
    (same : other.outputs.find? artifact.name = packager.outputs.find? artifact.name)
    (synced : other.unsynced ⊆ packager.unsynced) : Settles job other artifact := by
  have here := current?_congr same
  unfold Settles
  rw [config, here]
  rcases settles with ⟨entries, effort, current, published, built⟩ | absent
  · exact .inl ⟨entries, effort, current, fun held => published (synced held), built⟩
  · exact .inr absent

/-- Nothing is written for an output that is published and did not change. -/
theorem publish_unchanged {name : String} (published : name ∉ packager.unsynced)
    (previous : Option (List Entry)) (entries : List Entry) (disk : Disk) :
    packager.publish name previous entries true disk = .ok 0 disk := by
  unfold publish
  cases packager.config.outputDirectory with
  | none => rfl
  | some directory => simp [published, pure, EStateM.pure]

/-- One step: nothing changes, on the disk neither. -/
theorem Settles.update (settles : Settles job packager artifact) (disk : Disk) :
    ∃ report after, update job packager disk artifact = (.ok report, after, disk) ∧
      after.output? artifact.name = packager.output? artifact.name ∧
      after.unsynced ⊆ packager.unsynced ∧ report.updated = [] ∧ report.effort.encoded = 0 := by
  rcases settles with ⟨entries, effort, current, published, built, nothing⟩ | ⟨effort, absent,
    change, built⟩
  · have untouched := publish_unchanged published (some entries) entries disk
    refine ⟨⟨[], [artifact.name], effort, 0⟩, packager.store artifact entries, ?_, ?_,
      List.filter_subset_self _, rfl, nothing⟩
    · simp [Packager.update, current, built, untouched]
    · rw [output?_of_current? current, output?_of_current? (current?_store entries)]
  · refine ⟨.none, packager, ?_, rfl, List.Subset.refl _, rfl, rfl⟩
    simp [Packager.update, absent, built, change]

/-- All steps, by induction on the artifacts. -/
theorem updateEach_settles {artifacts : List Artifact}
    (distinct : (artifacts.map Artifact.name).Nodup)
    (settles : ∀ artifact ∈ artifacts, Settles job packager artifact) :
    ∃ (reports : List Report) (after : Packager),
      updateEach job packager disk artifacts = (reports.map .ok, after, disk) ∧
      (∀ name, after.output? name = packager.output? name) ∧
      ∀ report ∈ reports, report.updated = [] ∧ report.effort.encoded = 0 := by
  induction artifacts generalizing packager with
  | nil => exact ⟨[], packager, rfl, fun _ => rfl, fun _ present => nomatch present⟩
  | cons first rest ih =>
    obtain ⟨fresh, distinct⟩ := List.nodup_cons.mp distinct
    obtain ⟨report, next, updated, own, synced, idle⟩ :=
      (settles first List.mem_cons_self).update disk
    obtain ⟨config, frame⟩ := update_frame job packager disk first
    rw [updated] at config frame
    have later : ∀ artifact ∈ rest, Settles job next artifact := fun artifact present =>
      (settles artifact (List.mem_cons_of_mem _ present)).congr config
        (frame artifact.name fun same => fresh (same ▸ List.mem_map_of_mem present)) synced
    obtain ⟨reports, after, updatedRest, same, idleRest⟩ := ih distinct later
    refine ⟨report :: reports, after, ?_, fun name => ?_, ?_⟩
    · simp [updateEach, updated, updatedRest]
    · rw [same name]
      by_cases here : name = first.name
      · exact here ▸ own
      · rw [output?, frame name here, output?]
    · exact List.forall_mem_cons.mpr ⟨idle, idleRest⟩

theorem run_settles
    (settles : ∀ artifact ∈ job.registry.artifacts.values, Settles job packager artifact)
    (others : ∀ name, job.registry.find? name = none → packager.output? name = none) :
    Rests job packager disk := by
  obtain ⟨reports, after, updated, same, idle⟩ :=
    @updateEach_settles job packager disk _ job.registry.names_nodup settles
  obtain ⟨report, summary⟩ : ∃ report, summarize (reports.map .ok) = .ok report :=
    summarize_eq_ok.mpr fun result present => by
      obtain ⟨report, _, rfl⟩ := List.mem_map.mp present
      exact ⟨report, rfl⟩
  obtain ⟨reports', listed, updates, _, effort⟩ := summarize_ok summary
  obtain rfl : reports = reports' := List.map_injective_iff.mpr (fun _ _ => Except.ok.inj) listed
  refine ⟨report, after.retain job.registry, disk, ?_, fun name => ?_, ?_, ?_⟩
  · simp [run, updated, summary]
  · rw [output?, find?_retain]
    cases known : job.registry.find? name with
    | none => exact (others name known).symm
    | some artifact => exact same name
  · rw [updates, List.flatMap_eq_nil_iff]
    exact fun report present => (idle report present).1
  · rw [effort, count_total_eq_zero Effort.encoded rfl fun _ _ => rfl]
    exact fun report present => (idle report present).2

/-- Nothing is missing in any output where an update for a change looks. -/
def GaplessOutputs (job : Job) (source : Source) (packager : Packager) : Prop :=
  ∀ artifact ∈ job.registry.artifacts.values, ∀ entries,
    packager.current? artifact = some entries →
      (job.assembler packager.config.compression artifact.name).GaplessOutput source
        artifact.plan entries

section Twice

variable {source : Source} {once : Packager} {disk' : Disk}
  (succeeded : run (job.changing source) packager disk = (.ok report, once, disk'))

include succeeded

/-- What a run for a change makes of the output of one artifact, which is published then. -/
theorem run_makes (registered : artifact ∈ job.registry.artifacts.values) :
    once.config = packager.config ∧
      (∃ report, Makes (job.changing source) once.config.compression artifact
        (packager.current? artifact) (once.current? artifact) report) ∧
      ∀ entries, once.current? artifact = some entries → artifact.name ∉ once.unsynced := by
  have ok : (run (job.changing source) packager disk).1 = .ok report := congrArg Prod.fst succeeded
  obtain ⟨_, _, _, config, _⟩ := run_alone (job.changing source) packager disk
  obtain ⟨_, each, _⟩ := run_report ok
  obtain ⟨own, _, alone⟩ := exists_of_mem_left each registered
  have published := @run_unsynced _ _ _ artifact _ ok registered
  rw [succeeded] at config alone published
  have makes := alone.makes
  rw [← config] at makes
  exact ⟨config, ⟨own, makes⟩, @published⟩

theorem rests_of_gapless (gapless : GaplessOutputs job source once) :
    Rests (job.changing source) once disk' := by
  refine run_settles (fun artifact registered => ?_) fun name absent => ?_
  · obtain ⟨_, ⟨own, makes⟩, published⟩ := run_makes succeeded registered
    unfold Settles
    cases now : once.current? artifact with
    | none =>
      rw [now] at makes
      obtain ⟨_, change, effort, built⟩ := makes.of_none
      exact .inr ⟨effort, rfl, change, built⟩
    | some entries =>
      rw [now] at makes
      obtain ⟨effort, built⟩ := makes.built
      obtain ⟨effort', again, nothing⟩ :=
        Assembler.output_repeat built (gapless artifact registered entries now)
      exact .inl ⟨entries, effort', rfl, published entries now, again, nothing⟩
  · have forgotten := run_forgets (job.changing source) packager disk absent
    rwa [succeeded] at forgotten

/-- After the second run, nothing is missing any more. -/
theorem gapless_of_twice {report' : Report} {twice : Packager} {disk'' : Disk}
    (again : run (job.changing source) once disk' = (.ok report', twice, disk'')) :
    GaplessOutputs job source twice := by
  intro artifact registered entries current
  obtain ⟨_, ⟨_, first⟩, _⟩ := run_makes succeeded registered
  obtain ⟨config, ⟨_, second⟩, _⟩ := run_makes again registered
  rw [current, config] at second
  rw [config]
  cases before : once.current? artifact with
  | none =>
    -- Nothing was to be built, so nothing was built by the second run either.
    rw [before] at first second
    obtain ⟨_, change, _, nothing⟩ := first.of_none
    cases second with
    | output _ needed built =>
      have empty := congrArg Prod.fst (Except.ok.inj (built.symm.trans nothing))
      exact nomatch change.symm.trans (needed rfl empty)
  | some previous =>
    rw [before] at first second
    obtain ⟨_, builtFirst⟩ := first.built
    obtain ⟨_, builtSecond⟩ := second.built
    exact Assembler.output_fill builtFirst builtSecond

/-- A run that changes nothing had no gaps to fill. -/
theorem gapless_of_rests (rests : Rests (job.changing source) once disk') :
    GaplessOutputs job source once := by
  intro artifact registered entries current
  obtain ⟨report', twice, disk'', again, same, _⟩ := rests
  obtain ⟨config, ⟨_, makes⟩, _⟩ := run_makes again registered
  have gapless := gapless_of_twice succeeded again artifact registered entries
  rw [config] at gapless
  refine gapless ?_
  cases after : twice.current? artifact with
  | none =>
    rw [current, after] at makes
    exact nomatch makes.of_none.1
  | some entries' =>
    have kept := same artifact.name
    rwa [output?_of_current? current, output?_of_current? after] at kept

/-- If every artifact had an output without gaps, it still has one. -/
theorem gapless_of_gapless (filled : ∀ artifact ∈ job.registry.artifacts.values,
      ∃ entries, packager.current? artifact = some entries)
    (gapless : GaplessOutputs job source packager) : GaplessOutputs job source once := by
  intro artifact registered entries current
  obtain ⟨config, ⟨_, makes⟩, _⟩ := run_makes succeeded registered
  obtain ⟨previous, before⟩ := filled artifact registered
  rw [before, current] at makes
  obtain ⟨effort, built⟩ := makes.built
  refine Assembler.output_stays built ?_
  rw [config]
  exact gapless artifact registered previous before

/-- Let a run for a change succeed. Another one right after it changes nothing exactly if the first
one left no gaps in the outputs, which it does not if all artifacts had outputs without gaps before.
If the second one succeeds as well, then the third one changes nothing in any case. -/
theorem rests_iff_gapless :
    (Rests (job.changing source) once disk' ↔ GaplessOutputs job source once) ∧
    ((∀ artifact ∈ job.registry.artifacts.values, ∃ entries,
        packager.current? artifact = some entries) →
      GaplessOutputs job source packager → Rests (job.changing source) once disk') ∧
    ∀ report' twice disk'', run (job.changing source) once disk' = (.ok report', twice, disk'') →
      Rests (job.changing source) twice disk'' := by
  refine ⟨⟨gapless_of_rests succeeded, rests_of_gapless succeeded⟩, ?_, ?_⟩
  · intro filled gapless
    exact rests_of_gapless succeeded (gapless_of_gapless succeeded filled gapless)
  · intro report' twice disk'' again
    exact rests_of_gapless again (gapless_of_twice succeeded again)

end Twice

end Depot.Packager

namespace Depot.Sample

open Packager (Job run start)

/-- A job for two files that are not packaged yet. -/
def unpackaged : Job :=
  (single [.leaf (.file ⟨0, 1⟩), .leaf (.file ⟨0, 2⟩)]).everything
    ((Sessions.start 1).run filing).workspace

def once : Except PackagerFault Report × Packager × Disk :=
  run (unpackaged.changing ⟨0, 1⟩) (start .standard) .blank

def twice : Except PackagerFault Report × Packager × Disk :=
  run (unpackaged.changing ⟨0, 1⟩) once.2.1 once.2.2

end Depot.Sample

namespace Depot.Packager

open Sample

theorem updates_succeed :
    once.1 = .ok ⟨["app"], [], ⟨1, 0, 0⟩, 0⟩ ∧ twice.1 = .ok ⟨["app"], [], ⟨2, 0, 0⟩, 0⟩ := by
  simp only [twice, once, unpackaged, single, Digest.blake3_eq_quick]
  decide +kernel

theorem rests_iff_gapless_thrice : Rests (unpackaged.changing ⟨0, 1⟩) twice.2.1 twice.2.2 := by
  obtain ⟨first, second⟩ := updates_succeed
  obtain ⟨_, _, third⟩ := rests_iff_gapless (Prod.ext first rfl)
  exact third _ _ _ (Prod.ext second rfl)

/-- The first update of an output that was never built makes a part of it, and the second one the
rest. -/
theorem not_rests_once :
    (∃ report, once.1 = .ok report) ∧ ¬ Rests (unpackaged.changing ⟨0, 1⟩) once.2.1 once.2.2 := by
  obtain ⟨first, second⟩ := updates_succeed
  refine ⟨⟨_, first⟩, fun rests => ?_⟩
  obtain ⟨report, _, _, ran, _, updated, _⟩ := rests
  have same : twice.1 = .ok report := congrArg Prod.fst ran
  obtain rfl := Except.ok.inj (second.symm.trans same)
  cases updated

end Depot.Packager

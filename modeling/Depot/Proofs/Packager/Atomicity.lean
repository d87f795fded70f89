import Depot.Proofs.Packager.Run

set_option autoImplicit false

namespace Depot.Packager

variable {job : Job} {packager other : Packager} {disk : Disk} {artifact : Artifact} {name : String}

/-- Two packagers have the same for an artifact: its output, and whether its directory is in doubt.
-/
structure Agree (other packager : Packager) (name : String) : Prop where
  config : other.config = packager.config
  output : other.outputs.find? name = packager.outputs.find? name
  unsynced : other.unsynced.contains name = packager.unsynced.contains name

theorem Agree.publish (agree : Agree other packager name) :
    other.publish name = packager.publish name := by
  funext previous entries unchanged
  simp only [Packager.publish, agree.config, agree.unsynced]

theorem contains_store {entries : List Entry} (apart : name ≠ artifact.name) :
    (packager.store artifact entries).unsynced.contains name = packager.unsynced.contains name := by
  rw [Bool.eq_iff_iff, List.contains_iff_mem, List.contains_iff_mem, store, List.mem_filter]
  simp [apart]

theorem contains_doubt (apart : name ≠ artifact.name) :
    (packager.doubt artifact).unsynced.contains name = packager.unsynced.contains name := by
  unfold doubt
  split
  · rfl
  · simp [apart]

/-- An update looks at what it updates only. -/
theorem Agree.update (agree : Agree other packager artifact.name) (disk : Disk) :
    (update job other disk artifact).1 = (update job packager disk artifact).1 ∧
      (update job other disk artifact).2.1.outputs.find? artifact.name =
        (update job packager disk artifact).2.1.outputs.find? artifact.name := by
  simp only [Packager.update, agree.config, current?_congr agree.output, agree.publish]
  split
  · exact ⟨rfl, agree.output⟩
  · split
    · exact ⟨rfl, agree.output⟩
    · split
      · exact ⟨rfl, by rw [outputs_doubt, outputs_doubt, agree.output]⟩
      · exact ⟨rfl, by simp [store, NameMap.find?_insert]⟩

/-- For all other artifacts, the packager stays as it was. -/
theorem update_agrees (job : Job) (packager : Packager) (disk : Disk) (artifact : Artifact)
    (apart : name ≠ artifact.name) : Agree (update job packager disk artifact).2.1
      packager name := by
  obtain ⟨config, frame⟩ := update_frame job packager disk artifact
  refine ⟨config, frame name apart, ?_⟩
  unfold update
  extract_lets assembler previous
  split
  · rfl
  · split
    · rfl
    · extract_lets
      split
      · exact contains_doubt apart
      · exact contains_store apart

/-- An update that fails leaves the output as it was. -/
theorem update_failed {fault : PackagerFault}
    (failed : (update job packager disk artifact).1 = .error fault) :
    (update job packager disk artifact).2.1.outputs = packager.outputs := by
  have ends := update_ends job packager disk artifact
  generalize update job packager disk artifact = outcome at failed ends ⊢
  cases ends with
  | unbuilt _ => rfl
  | nothing _ _ _ => cases failed
  | refused _ _ => exact outputs_doubt
  | stored _ _ _ => cases failed

/-- What an update makes of an output does not depend on the disk, as long as this takes it. -/
theorem update_disk {other : Disk} {report report' : Report}
    (here : (update job packager disk artifact).1 = .ok report)
    (there : (update job packager other artifact).1 = .ok report') :
    (update job packager disk artifact).2.1.outputs =
      (update job packager other artifact).2.1.outputs := by
  have ends := update_ends job packager disk artifact
  have ends' := update_ends job packager other artifact
  generalize update job packager disk artifact = outcome at here ends ⊢
  generalize update job packager other artifact = outcome' at there ends' ⊢
  cases ends with
  | unbuilt _ => cases here
  | refused _ _ => cases here
  | nothing absent change built =>
    cases ends' with
    | unbuilt _ => cases there
    | refused _ _ => cases there
    | nothing _ _ _ => rfl
    | stored _ built' needed =>
      rw [absent] at built'
      cases built.symm.trans built'
      exact absurd change (by simp [needed absent rfl])
  | stored _ built needed =>
    cases ends' with
    | unbuilt _ => cases there
    | refused _ _ => cases there
    | nothing absent change built' =>
      rw [absent] at built
      cases built.symm.trans built'
      exact absurd change (by simp [needed absent rfl])
    | stored _ built' _ =>
      cases built.symm.trans built'
      rfl

def turn (job : Job) (packager : Packager) (disk : Disk) : List Artifact → String → Disk
  | [], _ => disk
  | artifact :: rest, name =>
    if artifact.name = name then disk
    else
      let (_, packager, disk) := update job packager disk artifact
      turn job packager disk rest name

/-- What an artifact gets at its turn, if it is updated as if it were the only one. -/
def alone (job : Job) (packager : Packager) (disk : Disk) (artifacts : List Artifact)
    (artifact : Artifact) : Except PackagerFault Report × Packager × Disk :=
  update job packager (turn job packager disk artifacts artifact.name) artifact

theorem alone_head (job : Job) (packager : Packager) (disk : Disk) (artifact : Artifact)
    (rest : List Artifact) :
    alone job packager disk (artifact :: rest) artifact = update job packager disk artifact := by
  simp [alone, turn]

/-- Whatever became of the artifacts before, one gets the same. -/
theorem alone_tail {first : Artifact} {rest : List Artifact} (apart : artifact.name ≠ first.name) :
    let (_, packager', disk') := update job packager disk first
    (alone job packager' disk' rest artifact).1 =
        (alone job packager disk (first :: rest) artifact).1 ∧
      (alone job packager' disk' rest artifact).2.1.outputs.find? artifact.name =
        (alone job packager disk (first :: rest) artifact).2.1.outputs.find? artifact.name := by
  have agree := update_agrees job packager disk first apart
  have later : turn job packager disk (first :: rest) artifact.name =
      turn job (update job packager disk first).2.1 (update job packager disk first).2.2 rest
        artifact.name := by
    rw [turn, if_neg apart.symm]
  simp only [alone, later]
  exact agree.update _

/-- Each artifact gets what it would get alone, by induction on the artifacts. -/
theorem updateEach_turns {artifacts : List Artifact}
    (distinct : (artifacts.map Artifact.name).Nodup) (packager : Packager) (disk : Disk) :
    (updateEach job packager disk artifacts).1 =
        artifacts.map (fun artifact => (alone job packager disk artifacts artifact).1) ∧
      ∀ artifact ∈ artifacts,
        (updateEach job packager disk artifacts).2.1.outputs.find? artifact.name =
          (alone job packager disk artifacts artifact).2.1.outputs.find? artifact.name := by
  induction artifacts generalizing packager disk with
  | nil => exact ⟨rfl, fun _ present => nomatch present⟩
  | cons first rest ih =>
    obtain ⟨fresh, others⟩ := List.nodup_cons.mp distinct
    have apart : ∀ artifact ∈ rest, artifact.name ≠ first.name := fun artifact present same =>
      fresh (same ▸ List.mem_map_of_mem present)
    obtain ⟨results, outputs⟩ := ih others (update job packager disk first).2.1
      (update job packager disk first).2.2
    simp only [updateEach]
    constructor
    · rw [results, List.map_cons, alone_head]
      congr 1
      exact List.map_congr_left fun artifact present => (alone_tail (apart artifact present)).1
    · intro artifact present
      rcases List.mem_cons.mp present with rfl | later
      · obtain ⟨_, frame, _⟩ := @updateEach_alone job rest others
          (update job packager disk artifact).2.1 (update job packager disk artifact).2.2
        rw [alone_head]
        exact frame artifact.name fresh
      · rw [outputs artifact later]
        exact (alone_tail (apart artifact later)).2

/-- The fault of a run is that of the first artifact with one. -/
theorem summarize_eq_error_iff {artifacts : List Artifact}
    {outcome : Artifact → Except PackagerFault Report} {fault : PackagerFault}
    (ascending : artifacts.Pairwise fun first second => first.name < second.name) :
    summarize (artifacts.map outcome) = .error fault ↔
      ∃ artifact ∈ artifacts, outcome artifact = .error fault ∧
        ∀ before ∈ artifacts, before.name < artifact.name →
          ∃ report, outcome before = .ok report := by
  induction artifacts with
  | nil => simp [summarize]
  | cons first rest ih =>
    obtain ⟨least, ascending⟩ := List.pairwise_cons.mp ascending
    have lowest : ∀ before ∈ first :: rest, ¬ before.name < first.name := by
      intro before present less
      rcases List.mem_cons.mp present with rfl | later
      · exact String.lt_irrefl _ less
      · exact String.lt_irrefl _ (String.lt_trans less (least before later))
    rw [List.map_cons]
    cases here : outcome first with
    | error own =>
      constructor
      · intro failed
        cases failed
        exact ⟨first, List.mem_cons_self, here, fun before present less =>
          absurd less (lowest before present)⟩
      · rintro ⟨artifact, present, failed, others⟩
        rcases List.mem_cons.mp present with rfl | later
        · rw [here] at failed
          exact failed
        · obtain ⟨report, ok⟩ := others first List.mem_cons_self (least artifact later)
          rw [here] at ok
          cases ok
    | ok report =>
      have tail : summarize (.ok report :: rest.map outcome) = .error fault ↔
          summarize (rest.map outcome) = .error fault := by
        rw [summarize]
        cases summarize (rest.map outcome) <;> simp [Except.map]
      rw [tail, ih ascending]
      constructor
      · rintro ⟨artifact, present, failed, others⟩
        refine ⟨artifact, List.mem_cons_of_mem _ present, failed, fun before among less => ?_⟩
        rcases List.mem_cons.mp among with rfl | later
        · exact ⟨report, here⟩
        · exact others before later less
      · rintro ⟨artifact, present, failed, others⟩
        rcases List.mem_cons.mp present with rfl | later
        · rw [here] at failed
          cases failed
        · exact ⟨artifact, later, failed, fun before among less =>
            others before (List.mem_cons_of_mem _ among) less⟩

/-- Every artifact has the result in a run that it would have alone. One that fails keeps the output
that it had, revision and all; any other one has the output that it would have alone on any disk
that takes it; one that is not registered has none. The run fails if an artifact does, with the
fault of the one whose name comes first. -/
theorem run_atomic (job : Job) (packager : Packager) (disk : Disk) :
    let artifacts := job.registry.artifacts.values
    let result (artifact : Artifact) := (alone job packager disk artifacts artifact).1
    let ran := run job packager disk
    (updateEach job packager disk artifacts).1 = artifacts.map result ∧
    (∀ artifact ∈ artifacts, ∀ fault, result artifact = .error fault →
      ran.2.1.outputs.find? artifact.name = packager.outputs.find? artifact.name) ∧
    (∀ artifact ∈ artifacts, ∀ report, result artifact = .ok report →
      ∀ other report', (update job packager other artifact).1 = .ok report' →
        ran.2.1.outputs.find? artifact.name =
          (update job packager other artifact).2.1.outputs.find? artifact.name) ∧
    (∀ name, job.registry.find? name = none → ran.2.1.outputs.find? name = none) ∧
    ((∃ report, ran.1 = .ok report) ↔
      ∀ artifact ∈ artifacts, ∃ report, result artifact = .ok report) ∧
    ∀ fault, ran.1 = .error fault ↔
      ∃ artifact ∈ artifacts, result artifact = .error fault ∧
        ∀ before ∈ artifacts, before.name < artifact.name →
          ∃ report, result before = .ok report := by
  intro artifacts result ran
  obtain ⟨results, outputs⟩ :=
    @updateEach_turns job artifacts job.registry.names_nodup packager disk
  have summary : ran.1 = summarize (artifacts.map result) := congrArg summarize results
  have stored : ∀ artifact ∈ artifacts, ran.2.1.outputs.find? artifact.name =
      (alone job packager disk artifacts artifact).2.1.outputs.find? artifact.name := by
    intro artifact present
    have found := Registry.find?_eq_some.mpr ⟨present, rfl⟩
    have retained := @find?_retain (updateEach job packager disk artifacts).2.1
      job.registry artifact.name
    rw [found] at retained
    exact retained.trans (outputs artifact present)
  refine ⟨results, ?_, ?_, ?_, ?_, ?_⟩
  · intro artifact present fault failed
    rw [stored artifact present, alone, update_failed failed]
  · intro artifact present report ok other report' ok'
    rw [stored artifact present, alone, update_disk ok ok']
  · obtain ⟨_, _, _, _, others⟩ := run_alone job packager disk
    exact others
  · rw [summary, summarize_eq_ok, List.forall_mem_map]
  · intro fault
    rw [summary]
    exact summarize_eq_error_iff job.registry.values_ascending

end Depot.Packager

import Depot.Proofs.Build.Stamps
import Depot.Proofs.Packager.Everything
import Depot.Proofs.Workspace.History

set_option autoImplicit false

namespace Depot

open Packager (Job)
open Assembler (Unequivocal)

namespace Packager

variable {job : Job} {packager : Packager} {disk : Disk} {artifact : Artifact}

def Sound (job : Job) (seen : List (Stamp × Option Bytes)) (strings : List Bytes)
    (packager : Packager) :
    Prop :=
  ∀ name output, packager.outputs.find? name = some output → ∀ entry ∈ output.entries,
    Assembler.Sound (job.assembler packager.config.compression name) seen strings entry

theorem current?_sound {seen : List (Stamp × Option Bytes)} {strings : List Bytes}
    (sound : Sound job seen strings packager) :
    ∀ members ∈ packager.current? artifact, ∀ member ∈ members,
      Assembler.Sound (job.assembler packager.config.compression artifact.name) seen
        strings member := by
  intro members current member present
  obtain ⟨output, found, rfl⟩ := Option.map_eq_some_iff.mp (output?_of_current? current)
  exact sound artifact.name output found member present

theorem hashed_find? {name : String} {output : Output}
    (found : packager.outputs.find? name = some output)
    {entry : Entry} (present : entry ∈ output.entries) : entry.hashed ⊆ packager.hashed := by
  intro string held
  refine List.mem_flatMap.mpr ⟨output, NameMap.mem_values found, List.mem_cons_of_mem _ ?_⟩
  exact Entry.hashed_subset present held

/-- One run keeps all outputs sound. -/
theorem run_sound (lengths : ∀ content, (job.hash content).bytes.length = 32)
    {seen : List (Stamp × Option Bytes)} {strings : List Bytes}
    (separates : job.hash.Separates strings) (sighted : job.workspace.sightings ⊆ seen)
    (hashed : (run job packager disk).2.1.hashed ⊆ strings)
    (sound : Sound job seen strings packager) :
    Sound job seen strings (run job packager disk).2.1 := by
  obtain ⟨_, _, _, config, _⟩ := run_alone job packager disk
  intro name output found entry present
  rw [config]
  have strings' := List.Subset.trans (hashed_find? found present) hashed
  rcases run_outputs job packager disk found with kept | ⟨artifact, effort, known, _, built⟩
  · exact sound name output kept entry present
  · obtain ⟨_, rfl⟩ := Registry.find?_eq_some.mp known
    obtain ⟨_, inherited⟩ := Assembler.output_inherits
      (Assembler.sound_inherits lengths separates sighted) (current?_sound sound) built
    exact (inherited entry present).sound strings'

/-- A run that goes by stamps gives each artifact its full output. -/
theorem run_stale (stale : job.scope = .stale)
    (lengths : ∀ content, (job.hash content).bytes.length = 32)
    {seen : List (Stamp × Option Bytes)} {strings : List Bytes}
    (separates : job.hash.Separates strings)
    (unequivocal : Unequivocal seen job.workspace) (sound : Sound job seen strings packager)
    (hashed : (run job packager disk).2.1.hashed ⊆ strings) {report : Report}
    (succeeded : (run job packager disk).1 = .ok report)
    (registered : artifact ∈ job.registry.artifacts.values) :
    ∃ entries,
      (job.assembler packager.config.compression artifact.name).full? artifact.plan = some entries ∧
        (run job packager disk).2.1.current? artifact = some entries := by
  obtain ⟨_, each, _⟩ := run_report succeeded
  obtain ⟨own, _, alone⟩ := exists_of_mem_left each registered
  have makes := alone.makes
  cases now : (run job packager disk).2.1.current? artifact with
  | none =>
    rw [now] at makes
    have change := makes.of_none.2.1
    rw [stale] at change
    cases change
  | some entries =>
    rw [now] at makes
    obtain ⟨effort, built⟩ := makes.built
    have more : Sound job (seen ++ job.workspace.sightings) strings packager :=
      fun name output found entry present =>
        (sound name output found entry present).mono (List.subset_append_left _ _)
    have last := run_sound lengths separates (List.subset_append_right seen _) hashed more
    have encoded := current?_sound last entries now
    obtain ⟨_, _, _, config, _⟩ := run_alone job packager disk
    rw [config] at encoded
    rw [stale] at built
    refine ⟨entries, ?_, rfl⟩
    exact Assembler.output_stale unequivocal (current?_sound sound) built fun result present =>
      (encoded result present).encoded

end Packager

namespace Project

/-- The stamps and contents that runs could see. -/
def seen (tools : Job) (project : Project) : List Act → List (Stamp × Option Bytes)
  | [] => []
  | .command request :: rest => (project.step tools (.command request)).seen tools rest
  | .run registry scope disk :: rest =>
    project.sessions.workspace.sightings ++ (project.step tools (.run registry scope disk)).seen
      tools rest

/-- The byte strings that were hashed for the outputs at any time. -/
def hashedAlong (tools : Job) (project : Project) : List Act → List Bytes
  | [] => project.packager.hashed
  | act :: rest => project.packager.hashed ++ (project.step tools act).hashedAlong tools rest

variable {tools : Job} {project : Project}

theorem hashed_subset_along (history : List Act) :
    project.packager.hashed ⊆ project.hashedAlong tools history := by
  cases history with
  | nil => exact List.Subset.refl _
  | cons act rest => exact List.subset_append_left _ _

/-- A whole history keeps all outputs sound, by induction on what happened. -/
theorem run_sound (lengths : ∀ content, (tools.hash content).bytes.length = 32)
    {strings : List Bytes} (separates : tools.hash.Separates strings)
    {all : List (Stamp × Option Bytes)} {history : List Act}
    (sighted : project.seen tools history ⊆ all)
    (hashed : project.hashedAlong tools history ⊆ strings)
    (sound : Packager.Sound tools all strings project.packager) :
    Packager.Sound tools all strings (project.run tools history).packager ∧
      (project.run tools history).packager.config = project.packager.config := by
  induction history generalizing project with
  | nil => exact ⟨sound, rfl⟩
  | cons act rest ih =>
    have later := (List.append_subset.mp hashed).2
    cases act with
    | command request => exact ih sighted later sound
    | run registry scope disk =>
      obtain ⟨here, sightedLater⟩ := List.append_subset.mp sighted
      have after : (project.step tools (.run registry scope disk)).packager.hashed ⊆ strings :=
        List.Subset.trans (hashed_subset_along rest) later
      have next := @Packager.run_sound (project.job tools registry scope)
        project.packager disk lengths
        all strings separates here after sound
      obtain ⟨_, _, _, config, _⟩ :=
        Packager.run_alone (project.job tools registry scope) project.packager disk
      obtain ⟨last, configLast⟩ := @ih (project.step tools (.run registry scope disk))
        sightedLater later next
      exact ⟨last, configLast.trans config⟩

end Project

namespace Packager

/-- Let anything happen in a project, and let a run that goes by stamps succeed then. If no stamp
that runs could see before stands for another content now, the run gives the outputs of a build of
everything by a new packager, which succeeds, unless byte strings collide. -/
theorem stale_eq_everything {tools : Job}
    (lengths : ∀ content, (tools.hash content).bytes.length = 32) {volumes : Nat} {config : Config}
    {history : List Act} {registry : Registry} {disk disk' : Disk} {report : Report}
    {made : Packager} :
    let project := (Project.start volumes config).run tools history
    run (project.job tools registry .stale) project.packager disk = (.ok report, made, disk') →
    Unequivocal ((Project.start volumes config).seen tools history) project.sessions.workspace →
    tools.hash.Separates ((Project.start volumes config).hashedAlong tools history ++ made.hashed) →
    ∀ fresh freshDisk, fresh.compression = config.compression → fresh.outputDirectory = none →
      ∃ report' full disk'',
        run (project.job tools registry .everything) (start fresh) freshDisk =
          (.ok report', full, disk'') ∧
        ∀ name, made.output? name = full.output? name := by
  intro project succeeded unequivocal separates fresh freshDisk alike unpublished
  let stale := project.job tools registry .stale
  let everything := project.job tools registry .everything
  have ran : (run stale project.packager disk).1 = .ok report := congrArg Prod.fst succeeded
  have blank : Sound tools ((Project.start volumes config).seen tools history)
      ((Project.start volumes config).hashedAlong tools history ++ made.hashed)
      (Project.start volumes config).packager := fun _ _ found => nomatch found
  obtain ⟨sound, sameConfig⟩ := Project.run_sound lengths separates (List.Subset.refl _)
    (List.subset_append_left _ _) blank
  have hashed : (run stale project.packager disk).2.1.hashed ⊆
      (Project.start volumes config).hashedAlong tools history ++ made.hashed := by
    rw [succeeded]
    exact List.subset_append_right _ _
  have complete (artifact : Artifact) (registered : artifact ∈ registry.artifacts.values) :
      ∃ entries, (everything.assembler fresh.compression artifact.name).full? artifact.plan =
        some entries ∧ made.current? artifact = some entries := by
    have whole := @run_stale stale project.packager disk artifact rfl lengths _ _
      separates unequivocal
      sound hashed report ran registered
    rw [succeeded, sameConfig] at whole
    rw [alike]
    exact whole
  obtain ⟨report', ok⟩ := @run_everything_buildable everything (start fresh) freshDisk
    rfl unpublished
    fun artifact registered => (complete artifact registered).imp fun _ => And.left
  let outcome := run everything (start fresh) freshDisk
  refine ⟨report', outcome.2.1, outcome.2.2, Prod.ext ok rfl, ?_⟩
  obtain ⟨eachFull, _, othersFull⟩ := @run_everything everything (start fresh) freshDisk
    rfl report' ok
  refine @output?_eq_output? _ registry _ (fun artifact registered => ?_) fun name absent => ?_
  · obtain ⟨entries, whole, current⟩ := complete artifact registered
    obtain ⟨entries', whole', current'⟩ := eachFull artifact registered
    obtain rfl : entries = entries' := Option.some.inj (whole.symm.trans whole')
    exact ⟨entries, current, current'⟩
  · have forgotten := run_forgets stale project.packager disk absent
    rw [succeeded] at forgotten
    exact ⟨forgotten, othersFull name absent⟩

end Packager

namespace Sample

/-- Two files are packaged, and then one of them gets another content. -/
def editing : List Act :=
  filing.map .command ++ [.run (single pair).registry .everything .blank,
    .command ⟨0, .setContent 1 "user" newText true⟩]

def edited : Project :=
  (Project.start 1 .standard).run (single pair) editing

def refreshed : Except PackagerFault Report × Packager × Disk :=
  Packager.run (edited.job (single pair) (single pair).registry .stale) edited.packager .blank

def anew : Except PackagerFault Report × Packager × Disk :=
  Packager.run (edited.job (single pair) (single pair).registry .everything)
    (.start .standard) .blank

/-- Two files are written through streams with the same stamp and packaged, and then they exchange
their names. -/
def swapping : List Act :=
  filing.map .command ++
  [.command ⟨0, .openStream 1 "user" 10⟩, .command ⟨0, .write 0 text⟩, .command ⟨0, .closeStream 0⟩,
    .command ⟨0, .openStream 2 "user" 10⟩, .command ⟨0, .write 1 newText⟩,
      .command ⟨0, .closeStream 1⟩,
    .run (single pair).registry .everything .blank, .command ⟨0, .rename 1 "user" "other"⟩,
    .command ⟨0, .rename 2 "user" "left"⟩, .command ⟨0, .rename 1 "user" "right"⟩]

def swapped : Project :=
  (Project.start 1 .standard).run (single pair) swapping

/-- The contents of the files at the top of an output. -/
def contents (packager : Packager) : Option (List (Option Bytes)) :=
  (packager.output? "app").map fun entries => entries.map Entry.bytes?

end Sample

namespace Packager

open Sample

theorem stale_eq_everything_edited :
    refreshed.2.1.output? "app" = anew.2.1.output? "app" := by
  have succeeded : refreshed.1 = .ok ⟨["app"], [], ⟨1, 1, 0⟩, 0⟩ := by
    simp only [refreshed, edited, single, Digest.blake3_eq_quick]
    decide +kernel
  have unequivocal : Unequivocal ((Project.start 1 .standard).seen (single pair) editing)
      edited.sessions.workspace := by decide +kernel
  have separates : (single pair).hash.Separates
      ((Project.start 1 .standard).hashedAlong (single pair) editing ++ refreshed.2.1.hashed) := by
    simp only [refreshed, edited, single, Digest.blake3_eq_quick]
    decide +kernel
  obtain ⟨_, full, _, ran, same⟩ := stale_eq_everything Blake3.length_hash (Prod.ext succeeded rfl)
    unequivocal separates .standard .blank rfl rfl
  have here : anew.2.1 = full := congrArg (fun outcome => outcome.2.1) ran
  rw [here]
  exact same "app"

/-- With a stamp for two contents, a file is used again in place of another one. -/
theorem stale_ne_everything_swapped :
    let made := run (swapped.job (single pair) (single pair).registry .stale)
      swapped.packager .blank
    let full := run (swapped.job (single pair) (single pair).registry .everything)
      (start .standard) .blank
    made.1 = .ok ⟨["app"], [], ⟨0, 2, 0⟩, 0⟩ ∧ full.1 = .ok ⟨["app"], [], ⟨2, 0, 0⟩, 0⟩ ∧
      made.2.1.output? "app" ≠ full.2.1.output? "app" := by
  intro made full
  have madeContents : contents made.2.1 = some [some newText, some text] := by decide +kernel
  have fullContents : contents full.2.1 = some [some text, some newText] := by decide +kernel
  have reports : made.1 = .ok ⟨["app"], [], ⟨0, 2, 0⟩, 0⟩ ∧ full.1 =
      .ok ⟨["app"], [], ⟨2, 0, 0⟩, 0⟩ := by
    simp only [made, full, swapped, single, Digest.blake3_eq_quick]
    decide +kernel
  refine ⟨reports.1, reports.2, fun same => ?_⟩
  have equal : contents made.2.1 = contents full.2.1 := by rw [contents, same, contents]
  rw [madeContents, fullContents] at equal
  revert equal
  decide

end Packager

end Depot

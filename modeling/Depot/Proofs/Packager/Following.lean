import Depot.Proofs.Packager.Synced

set_option autoImplicit false

namespace Depot

open Disk (Location Starts Ready Legible)
open Disk.Location (place Direct)
open Packager (Job Fit Synced Within)

namespace Packager

variable {job : Job} {packager : Packager} {disk : Disk} {artifact : Artifact}
  {directory : Location}

/-- A run forgets artifacts that are not registered, and changes nothing else of what the updates
gave. -/
theorem find?_run {name : String} {output : Output}
    (found : (run job packager disk).2.1.outputs.find? name = some output) :
    (updateEach job packager disk job.registry.artifacts.values).2.1.outputs.find? name =
      some output ∧
      (name ∉ (run job packager disk).2.1.unsynced →
        name ∉ (updateEach job packager disk job.registry.artifacts.values).2.1.unsynced) := by
  have retained := @find?_retain (updateEach job packager disk job.registry.artifacts.values).2.1
    job.registry name
  have found' := retained.symm.trans found
  split at found'
  · next registered =>
    refine ⟨found', fun certain doubted => certain ?_⟩
    exact List.mem_filter.mpr ⟨doubted, registered⟩
  · cases found'

theorem run_ready (texts : job.workspace.Textual) (orderly : job.registry.Orderly)
    (published : packager.config.outputDirectory = some directory) (ready : Ready directory disk)
    (fit : Fit job.hash packager) :
    Ready directory (run job packager disk).2.2 ∧ Fit job.hash (run job packager disk).2.1 ∧
      (run job packager disk).2.1.config = packager.config ∧
      (run job packager disk).2.2.working = disk.working := by
  obtain ⟨ready', fit', config, working⟩ := updateEach_ready texts orderly (List.Subset.refl _)
    published ready fit
  exact ⟨ready', fun name output found => fit' name output (find?_run found).1, config, working⟩

/-- After a run the directories hold what they should again, unless byte strings collide. -/
theorem run_synced (texts : job.workspace.Textual) (orderly : job.registry.Orderly)
    (lengths : ∀ content, (job.hash content).bytes.length = 32) {strings : List Bytes}
    (separates : job.hash.Separates strings)
    (published : packager.config.outputDirectory = some directory) (ready : Ready directory disk)
    (fit : Fit job.hash packager) (before : Within strings packager)
    (within : Within strings (run job packager disk).2.1)
    (synced : Synced directory packager disk) :
    Synced directory (run job packager disk).2.1 (run job packager disk).2.2 := by
  have within' :
      Within strings (updateEach job packager disk job.registry.artifacts.values).2.1 := by
    intro name output found
    cases known : job.registry.find? name with
    | none =>
      have absent : name ∉ job.registry.artifacts.values.map Artifact.name := by
        intro present
        obtain ⟨artifact, registered, rfl⟩ := List.mem_map.mp present
        rw [Registry.find?_eq_some.mpr ⟨registered, rfl⟩] at known
        cases known
      exact before name output ((updateEach_agrees absent packager disk).output.symm.trans found)
    | some artifact =>
      have retained :=
        @find?_retain (updateEach job packager disk job.registry.artifacts.values).2.1
        job.registry name
      rw [known] at retained
      exact within name output (retained.trans found)
  have each := updateEach_synced texts orderly lengths separates (List.Subset.refl _)
    job.registry.names_nodup published ready fit before within' synced
  intro name output found
  obtain ⟨found', certain'⟩ := find?_run found
  obtain ⟨part, named, shows⟩ := each name output found'
  exact ⟨part, named, fun certain => shows (certain' certain)⟩

/-- An artifact whose update succeeds and that has a current output then is not in doubt. -/
theorem run_certain (published : packager.config.outputDirectory = some directory) :
    List.Forall₂ (fun artifact result => (∃ report, result = .ok report) →
        ∀ entries, (run job packager disk).2.1.current? artifact = some entries →
          ∃ output, (run job packager disk).2.1.outputs.find? artifact.name = some output ∧
            output.entries = entries ∧ artifact.name ∉ (run job packager disk).2.1.unsynced)
      job.registry.artifacts.values
      (updateEach job packager disk job.registry.artifacts.values).1 := by
  refine (updateEach_certain job.registry.names_nodup published).imp
    fun artifact result certain => ?_
  intro succeeded entries current
  have found := current?_eq_some.mp current
  refine ⟨_, found, rfl, fun doubted => ?_⟩
  refine certain succeeded ?_ (List.mem_filter.mp doubted).1
  rw [current?_congr ((find?_run found).1.trans found.symm), current]
  exact Option.some_ne_none entries

end Packager

/-- An orderly registry, if it is a run. -/
inductive Act.Orderly : Act → Prop where
  | command (request : Request) : Orderly (.command request)
  | run {registry : Registry} (orderly : registry.Orderly) (scope : Scope) (disk : Disk) :
    Orderly (.run registry scope disk)

/-- What a run meets on the disk: no links, and a directory where the way to the output directory
starts. The first run finds only texts as names in the directories of artifacts; a later one finds
below the output directory what the run before left there. -/
structure Disk.Meets (working : List Name) (directory : Location) (left? : Option Disk)
    (disk : Disk) :
    Prop extends Starts directory disk where
  here : disk.working = working
  first : left? = none → ∀ name : Name, name.Textual →
    Legible disk (place working directory ++ [name])
  later : ∀ left ∈ left?, ∀ name rest,
    disk.thing? (place working directory ++ name :: rest) =
      left.thing? (place working directory ++ name :: rest)

/-- The first run may meet a disk with nothing on it. -/
theorem Disk.meets_of_empty {disk : Disk} (empty : disk.items = []) (here : disk.working = [])
    (directory : Location) : disk.Meets [] directory none := by
  have thing (spot : List Name) : disk.thing? spot = if spot =
      [] then some .directory else none := by
    rw [thing?, empty]
    cases spot <;> rfl
  refine ⟨⟨fun spot target => ?_, ?_⟩, here, fun _ name _ rest there => ?_, fun left none => ?_⟩
  · rw [thing]
    split <;> simp
  · rw [thing, Location.origin, here, ite_self, if_pos rfl]
  · rw [thing, if_neg (by simp)] at there
    exact absurd rfl there
  · cases none

namespace Project

/-- Nobody but the runs of a history writes below the output directory after the first one. -/
def Undisturbed (tools : Job) (working : List Name) (directory : Location) :
    Project → Option Disk → List Act → Prop
  | _, _, [] => True
  | project, left?, .command request :: rest =>
    Undisturbed tools working directory (project.step tools (.command request)) left? rest
  | project, left?, .run registry scope disk :: rest =>
    Disk.Meets working directory left? disk ∧
      Undisturbed tools working directory (project.step tools (.run registry scope disk))
        (some (Packager.run (project.job tools registry scope) project.packager disk).2.2) rest

/-- What holds between two runs: all names are texts, all outputs can be written out, and the next
run will meet directories that hold the outputs. -/
structure Follows (tools : Job) (strings : List Bytes) (working : List Name) (directory : Location)
    (left? : Option Disk) (project : Project) : Prop where
  trees : project.sessions.workspace.Trees
  texts : project.sessions.workspace.Textual
  published : project.packager.config.outputDirectory = some directory
  fit : Fit tools.hash project.packager
  ready : ∀ disk, disk.Meets working directory left? → Ready directory disk
  synced : (∀ content, (tools.hash content).bytes.length = 32) → tools.hash.Separates strings →
    ∀ disk, disk.Meets working directory left? → Synced directory project.packager disk

variable {tools : Job} {strings : List Bytes} {working : List Name} {directory : Location}
  {left? : Option Disk} {project : Project}

theorem Follows.start (strings : List Bytes) (direct : Direct working directory) (volumes : Nat)
    {config : Config} (published : config.outputDirectory = some directory) :
    Follows tools strings working directory none (start volumes config) where
  trees := Sessions.start_trees volumes
  texts := Sessions.start_textual volumes
  published := published
  fit _ _ found := nomatch found
  ready _ meets :=
    { toStarts := meets.toStarts
      direct := meets.here ▸ direct
      legible := meets.here ▸ meets.first rfl }
  synced _ _ _ _ _ _ found := nomatch found

theorem Follows.command (follows : Follows tools strings working directory left? project)
    (request : Request) :
    Follows tools strings working directory left? (project.step tools (.command request)) where
  trees := (Workspace.step_evolves follows.trees request).later
  texts := Sessions.step_textual follows.trees follows.texts request
  published := follows.published
  fit := follows.fit
  ready := follows.ready
  synced := follows.synced

section Meets

variable {left disk : Disk} (here : left.working = working)
  (meets : disk.Meets working directory (some left))

include here meets

/-- What was left below the output directory is met there. -/
theorem thing?_of_meets (name : Name) (rest : List Name) :
    disk.thing? (place disk.working directory ++ [name] ++ rest) =
      left.thing? (place left.working directory ++ [name] ++ rest) := by
  rw [meets.here, here, List.append_assoc]
  exact meets.later left rfl name rest

theorem ready_of_meets (ready : Ready directory left) : Ready directory disk where
  toStarts := meets.toStarts
  direct := by
    rw [meets.here, ← here]
    exact ready.direct
  legible := by
    intro name text rest
    rw [thing?_of_meets here meets]
    exact ready.legible name text rest

theorem synced_of_meets {packager : Packager} (synced : Synced directory packager left) :
    Synced directory packager disk := by
  intro name output found
  obtain ⟨part, named, shows⟩ := synced name output found
  refine ⟨part, named, fun certain path => ?_⟩
  rw [thing?_of_meets here meets]
  exact shows certain path

end Meets

/-- One run, whether it fails or not. -/
theorem Follows.run (follows : Follows tools strings working directory left? project)
    {registry : Registry} (orderly : registry.Orderly) {scope : Scope} {disk : Disk}
    (meets : disk.Meets working directory left?) (before : project.packager.hashed ⊆ strings)
    (after : (project.step tools (.run registry scope disk)).packager.hashed ⊆ strings) :
    Follows tools strings working directory
      (some (Packager.run (project.job tools registry scope) project.packager disk).2.2)
      (project.step tools (.run registry scope disk)) := by
  have ready := follows.ready disk meets
  obtain ⟨ready', fit, config, same⟩ := @Packager.run_ready (project.job tools registry scope)
    project.packager disk directory follows.texts orderly follows.published ready follows.fit
  have here := same.trans meets.here
  refine ⟨follows.trees, follows.texts, config ▸ follows.published, fit,
    fun disk' meets' => ready_of_meets here meets' ready', fun lengths separates disk' meets' => ?_⟩
  have synced := @Packager.run_synced (project.job tools registry scope) project.packager
    disk directory
    follows.texts orderly lengths strings separates follows.published ready follows.fit
    (Packager.within_of_hashed before) (Packager.within_of_hashed after)
    (follows.synced lengths separates disk meets)
  exact synced_of_meets here meets' synced

theorem hashed_run_subset (history : List Act) : ∀ project : Project,
    (project.run tools history).packager.hashed ⊆ project.hashedAlong tools history := by
  induction history with
  | nil => exact fun _ => List.Subset.refl _
  | cons act rest ih =>
    exact fun project => List.Subset.trans (ih (project.step tools act))
      (List.subset_append_right _ _)

/-- A whole history, by induction on what happened. -/
theorem Follows.history {history later : List Act} : ∀ {left? : Option Disk} {project : Project},
    Follows tools strings working directory left? project → (∀ act ∈ history, act.Orderly) →
    project.Undisturbed tools working directory left? (history ++ later) →
    project.hashedAlong tools history ⊆ strings →
    ∃ left?, Follows tools strings working directory left? (project.run tools history) ∧
      (project.run tools history).Undisturbed tools working directory left? later := by
  induction history with
  | nil => exact fun {left? project} follows _ undisturbed _ => ⟨left?, follows, undisturbed⟩
  | cons act rest ih =>
    intro left? project follows orderly undisturbed hashed
    obtain ⟨first, others⟩ := List.forall_mem_cons.mp orderly
    obtain ⟨before, after⟩ := List.append_subset.mp hashed
    cases first with
    | command request => exact ih (follows.command request) others undisturbed after
    | run registered scope disk =>
      obtain ⟨meets, undisturbed⟩ := undisturbed
      have next := List.Subset.trans (hashed_subset_along rest) after
      exact ih (follows.run registered meets before next) others undisturbed after

/-- What the next run leaves in the directories. -/
theorem Follows.shown (follows : Follows tools strings working directory left? project)
    {registry : Registry} (orderly : registry.Orderly) {scope : Scope} {disk : Disk}
    (meets : disk.Meets working directory left?)
    (lengths : ∀ content, (tools.hash content).bytes.length = 32)
    (separates : tools.hash.Separates strings) (before : project.packager.hashed ⊆ strings)
    (after : (project.step tools (.run registry scope disk)).packager.hashed ⊆ strings) :
    let ran := Packager.run (project.job tools registry scope) project.packager disk
    (∀ name output, ran.2.1.outputs.find? name = some output →
      ∃ part, Name.ofString name = .ok part ∧
        (name ∉ ran.2.1.unsynced → ran.2.2.Shows (place working directory ++ [part])
          output.entries)) ∧
    List.Forall₂ (fun artifact result => (∃ report, result = .ok report) →
        ∀ entries, ran.2.1.current? artifact = some entries →
          ∃ part, Name.ofString artifact.name = .ok part ∧
            ran.2.2.Shows (place working directory ++ [part]) entries)
      registry.artifacts.values
      (Packager.updateEach (project.job tools registry scope) project.packager disk
        registry.artifacts.values).1 := by
  intro ran
  have ready := follows.ready disk meets
  obtain ⟨_, _, _, same⟩ := @Packager.run_ready (project.job tools registry scope)
    project.packager disk
    directory follows.texts orderly follows.published ready follows.fit
  have here : ran.2.2.working = working := same.trans meets.here
  have synced := @Packager.run_synced (project.job tools registry scope) project.packager
    disk directory
    follows.texts orderly lengths strings separates follows.published ready follows.fit
    (Packager.within_of_hashed before) (Packager.within_of_hashed after)
    (follows.synced lengths separates disk meets)
  rw [Synced, here] at synced
  refine ⟨synced, ?_⟩
  refine (@Packager.run_certain (project.job tools registry scope) project.packager disk directory
    follows.published).imp fun artifact result certain succeeded entries current => ?_
  obtain ⟨output, found, rfl, known⟩ := certain succeeded entries current
  obtain ⟨part, named, shows⟩ := synced artifact.name output found
  exact ⟨part, named, shows known⟩

end Project

namespace Packager

/-- Let anything happen in a project, with runs among it that fail at any step on the disk, and let
nobody else write below the output directory after the first run. After a run, the directory of
every artifact that has an output and is not in doubt holds exactly this output; and an artifact
whose update succeeds and that has an output is not in doubt. This takes artifacts whose names can
be parts of a location, names that are texts in the plans and in the directories at the start, a way
to the output directory that does not lead through them, and byte strings that do not collide. -/
theorem run_follows {tools : Job} (lengths : ∀ content, (tools.hash content).bytes.length = 32)
    {volumes : Nat} {config : Config} {directory : Location} {working : List Name}
    (published : config.outputDirectory = some directory) (direct : Direct working directory)
    {history : List Act} {registry : Registry} {scope : Scope} {disk : Disk}
    (orderly : registry.Orderly) (orderlies : ∀ act ∈ history, act.Orderly) :
    let begun := Project.start volumes config
    let project := begun.run tools history
    let job := project.job tools registry scope
    let ran := run job project.packager disk
    begun.Undisturbed tools working directory none (history ++ [.run registry scope disk]) →
    tools.hash.Separates (begun.hashedAlong tools history ++ ran.2.1.hashed) →
    (∀ name output, ran.2.1.outputs.find? name = some output →
      ∃ part, Name.ofString name = .ok part ∧
        (name ∉ ran.2.1.unsynced → ran.2.2.Shows (place working directory ++ [part])
          output.entries)) ∧
    List.Forall₂ (fun artifact result => (∃ report, result = .ok report) →
        ∀ entries, ran.2.1.current? artifact = some entries →
          ∃ part, Name.ofString artifact.name = .ok part ∧
            ran.2.2.Shows (place working directory ++ [part]) entries)
      registry.artifacts.values
        (updateEach job project.packager disk registry.artifacts.values).1 := by
  intro begun project job ran undisturbed separates
  obtain ⟨left?, follows, meets, _⟩ := (Project.Follows.start _ direct volumes published).history
    orderlies undisturbed (List.subset_append_left _ ran.2.1.hashed)
  exact follows.shown orderly meets lengths separates
    (List.Subset.trans (Project.hashed_run_subset history begun) (List.subset_append_left _ _))
    (List.subset_append_right _ _)

end Packager

end Depot

namespace Depot.Sample

def out : Disk.Location := Bytes.ofString "out"

def publishing : Config := ⟨.none, some out⟩

/-- A disk with nothing on it that refuses the fourth step. -/
def failing : Disk := { Disk.blank with refusals := [none, none, none, some .device] }

/-- Two files are packaged, and the disk refuses to take the content of one of them. -/
def interrupting : List Act :=
  filing.map .command ++ [.run (single pair).registry .everything failing]

def interrupted : Project :=
  (Project.start 1 publishing).run (single pair) interrupting

def interruption : Except PackagerFault Report × Packager × Disk :=
  let project := (Project.start 1 publishing).run (single pair) (filing.map .command)
  Packager.run (project.job (single pair) (single pair).registry .everything)
    project.packager failing

def beside : Packager.Job :=
  { single [] with
    registry := ((Registry.empty.replace "b" [.leaf (.file ⟨0, 1⟩)]).2.replace "x"
      [.leaf (.file ⟨0, 1⟩)]).2 }

/-- The output directory, by a way through the directory of an artifact. -/
def crossing : Disk.Location := Bytes.ofString "out/b/c/../.."

/-- A build of both on a disk with nothing on it. -/
def crossed : Except PackagerFault Report × Packager × Disk :=
  Packager.run (beside.everything ((Sessions.start 1).run filing).workspace)
    (.start ⟨.none, some crossing⟩) .blank

def home : List Name :=
  [⟨Bytes.ofString "out", by decide⟩, ⟨Bytes.ofString "b", by decide⟩]

/-- A directory on that way, inside the first output. -/
def passed : Name := ⟨Bytes.ofString "c", by decide⟩

def resumption : Except PackagerFault Report × Packager × Disk :=
  Packager.run (interrupted.job (single pair) (single pair).registry .stale) interrupted.packager
    interruption.2.2

end Depot.Sample

namespace Depot.Packager

open Sample
open Disk (Location)

theorem run_follows_resumed :
    ∃ part entries, Name.ofString "app" = .ok part ∧
      resumption.2.1.output? "app" = some entries ∧
      resumption.2.2.Shows (Location.place [] out ++ [part]) entries := by
  have direct : Location.Direct [] out := Location.direct_of_downward (by decide +kernel) []
  have orderly : (single pair).registry.Orderly := by
    constructor
    · intro artifact registered
      cases List.mem_singleton.mp registered
      exact ⟨⟨Bytes.ofString "app", by decide⟩, by decide +kernel⟩
    · intro artifact registered
      cases List.mem_singleton.mp registered
      exact fun name present => nomatch present
  have orderlies : ∀ act ∈ interrupting, act.Orderly := by
    intro act present
    rcases List.mem_append.mp present with present | present
    · obtain ⟨request, _, rfl⟩ := List.mem_map.mp present
      exact .command request
    · cases List.mem_singleton.mp present
      exact .run orderly _ _
  have first : failing.Meets [] out none := Disk.meets_of_empty rfl rfl out
  let begun := (Project.start 1 publishing).run (single pair) (filing.map .command)
  have follows : Project.Follows (single pair) [] [] out none begun :=
    ((Project.Follows.start [] direct 1 rfl).command _).command _
  obtain ⟨ready, _, _, here⟩ :=
    @run_ready (begun.job (single pair) (single pair).registry .everything)
    begun.packager failing out follows.texts orderly follows.published (follows.ready failing first)
    follows.fit
  have second : interruption.2.2.Meets [] out (some interruption.2.2) := by
    refine ⟨ready.toStarts, here, fun none => (nomatch none), fun left same name rest => ?_⟩
    cases same
    rfl
  have undisturbed : (Project.start 1 publishing).Undisturbed (single pair) [] out none
      (interrupting ++ [.run (single pair).registry .stale interruption.2.2]) :=
    ⟨first, second, trivial⟩
  have separates : (single pair).hash.Separates
      ((Project.start 1 publishing).hashedAlong (single pair) interrupting ++
        resumption.2.1.hashed) := by
    simp only [resumption, interruption, interrupted, interrupting, single, Digest.blake3_eq_quick]
    decide +kernel
  obtain ⟨shown, _⟩ := run_follows Blake3.length_hash rfl direct orderly orderlies
    undisturbed separates
  obtain ⟨output, found⟩ : ∃ output, resumption.2.1.outputs.find? "app" = some output :=
    Option.isSome_iff_exists.mp (by decide +kernel)
  obtain ⟨part, named, shows⟩ := shown "app" output found
  have certain : "app" ∉ resumption.2.1.unsynced := by decide +kernel
  refine ⟨part, output.entries, named, ?_, shows certain⟩
  rw [output?, found, Option.map_some]

/-- What is removed from one output is made again for the next one, if the way to the output
directory comes through it. -/
theorem not_shows_crossed :
    crossed.1 = .ok ⟨["b", "x"], [], ⟨2, 0, 0⟩, 2⟩ ∧ crossed.2.1.unsynced = [] ∧
      Location.place [] crossing ++ [⟨Bytes.ofString "b", by decide⟩] = home ∧
      ∃ entries, crossed.2.1.output? "b" = some entries ∧ ¬ crossed.2.2.Shows home entries := by
  have told : (crossed.2.1.output? "b").map (fun entries => Entry.shown? entries [passed]) =
      some none := by decide +kernel
  have stands : crossed.2.2.thing? (home ++ [passed]) = some .directory := by decide +kernel
  obtain ⟨entries, output, shown⟩ := Option.map_eq_some_iff.mp told
  refine ⟨by decide +kernel, by decide +kernel, by decide +kernel, entries, output, fun shows => ?_⟩
  rw [shows, shown] at stands
  cases stands

end Depot.Packager

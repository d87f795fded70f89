import Depot.Proofs.Packager.Following

set_option autoImplicit false

namespace Depot.Packager

open Disk (Location)
open Disk.Location (Direct Passes place)

/-- Artifacts with distinct names have directories that are apart. -/
theorem apart_of_names {name name' : String} {part part' : Name}
    (named : Name.ofString name = .ok part)
    (named' : Name.ofString name' = .ok part') (distinct : name ≠ name') (base spot : List Name) :
    ¬ (base ++ [part] <+: spot ∧ base ++ [part'] <+: spot) := by
  rintro ⟨⟨rest, same⟩, ⟨rest', rfl⟩⟩
  simp only [List.append_assoc, List.singleton_append] at same
  have first := List.append_cancel_left same
  simp only [List.cons.injEq] at first
  obtain ⟨rfl, _⟩ := first
  apply distinct
  apply Bytes.ofString_injective
  rw [← Name.bytes_of_ofBytes named, Name.bytes_of_ofBytes named']

/-- Let anything happen in a project, with runs among it that fail at any step on the disk, and let
nobody else write below the output directory after the first run. In another run, updating an
artifact changes nothing outside the directory of its name, apart from directories that are made on
the way to the output directory, whether the disk refuses it or not; these directories are apart
from each other; and after a build of everything that succeeds each of them holds exactly the output
of its artifact, unless byte strings collide. This takes artifacts whose names can be parts of a
location, names that are texts in the plans and in the directories at the start, and a way to the
output directory that does not lead through them. -/
theorem run_apart {tools : Job} {volumes : Nat} {config : Config} {directory : Location}
    {working : List Name} (published : config.outputDirectory = some directory)
    (direct : Direct working directory) {history : List Act} {registry : Registry} {scope : Scope}
    {disk : Disk} (orderly : registry.Orderly) (orderlies : ∀ act ∈ history, act.Orderly) :
    let begun := Project.start volumes config
    let project := begun.run tools history
    let job := project.job tools registry scope
    let ran := run job project.packager disk
    begun.Undisturbed tools working directory none (history ++ [.run registry scope disk]) →
    (∀ earlier artifact later, registry.artifacts.values = earlier ++ artifact :: later →
      ∃ part, Name.ofString artifact.name = .ok part ∧
        let (_, packager', before) := updateEach job project.packager disk earlier
        let (_, _, after) := update job packager' before artifact
        ∀ spot, ¬ place working directory ++ [part] <+: spot →
          after.thing? spot = before.thing? spot ∨
            Passes working directory spot ∧ before.thing? spot = none ∧
              after.thing? spot = some .directory) ∧
    (∀ first ∈ registry.artifacts.values, ∀ second ∈ registry.artifacts.values, first ≠ second →
      ∀ part part', Name.ofString first.name = .ok part → Name.ofString second.name = .ok part' →
        ∀ spot, ¬ (place working directory ++ [part] <+: spot ∧
          place working directory ++ [part'] <+: spot)) ∧
    ((∀ content, (tools.hash content).bytes.length = 32) →
      tools.hash.Separates (begun.hashedAlong tools history ++ ran.2.1.hashed) →
      scope = .everything → ∀ report, ran.1 = .ok report →
        ∀ artifact ∈ registry.artifacts.values, ∃ part entries,
          Name.ofString artifact.name = .ok part ∧ ran.2.1.output? artifact.name = some entries ∧
            ran.2.2.Shows (place working directory ++ [part]) entries) := by
  intro begun project job ran undisturbed
  have hashed := List.subset_append_left (begun.hashedAlong tools history) ran.2.1.hashed
  obtain ⟨left?, follows, meets, _⟩ := (Project.Follows.start _ direct volumes published).history
    orderlies undisturbed hashed
  refine ⟨fun earlier artifact later split => ?_, ?_, ?_⟩
  · have before : earlier ⊆ registry.artifacts.values := split ▸ List.subset_append_left _ _
    have registered : artifact ∈ registry.artifacts.values := by simp [split]
    obtain ⟨part, named⟩ := orderly.named artifact registered
    obtain ⟨ready, fit, config', here⟩ := @updateEach_ready job project.packager disk directory
      follows.texts orderly earlier before follows.published (follows.ready disk meets) follows.fit
    refine ⟨part, named, fun spot outside => ?_⟩
    have working' := here.trans meets.here
    have confined := update_confined named (config' ▸ follows.published) ready fit follows.texts
      orderly registered
    have kept := @Disk.Confined.kept _ _ _ _ confined spot
    rw [working'] at kept
    exact kept outside
  · intro first registered second registered' distinct part part' named named' spot
    refine apart_of_names named named' (fun same => distinct ?_) _ spot
    have found := Registry.find?_eq_some.mpr ⟨registered, rfl⟩
    rw [same, Registry.find?_eq_some.mpr ⟨registered', rfl⟩] at found
    exact (Option.some.inj found).symm
  · intro lengths separates everything report succeeded artifact registered
    obtain ⟨_, shown⟩ := follows.shown orderly meets lengths separates
      (List.Subset.trans (Project.hashed_run_subset history begun) hashed)
        (List.subset_append_right _ _)
    obtain ⟨result, present, shows⟩ := exists_of_mem_left shown registered
    obtain ⟨each, _, _⟩ := @run_everything job project.packager disk everything report succeeded
    obtain ⟨entries, _, current⟩ := each artifact registered
    obtain ⟨part, named, shows⟩ := shows (summarize_eq_ok.mp ⟨report, succeeded⟩ result present)
      entries current
    exact ⟨part, entries, named, output?_of_current? current, shows⟩

end Depot.Packager

namespace Depot.Sample

open Packager (run)

/-- A project with two artifacts, one in the other. -/
def paired : Packager.Job :=
  { single [] with
    registry := ((Registry.empty.replace "lib" [.leaf (.file ⟨0, 1⟩)]).2.replace "app"
      [.leaf (.artifact "lib"), .leaf (.file ⟨0, 2⟩)]).2 }

/-- A build of both on a disk with nothing on it. -/
def placed : Except PackagerFault Report × Packager × Disk :=
  run (paired.everything ((Sessions.start 1).run filing).workspace) (.start publishing) .blank

/-- Two artifacts, of which the name of one is a location in the directory of the other. -/
def overlapping : Packager.Job :=
  { single [] with
    registry := ((Registry.empty.replace "a" [.leaf (.file ⟨0, 1⟩)]).2.replace "a/" []).2 }

def overlapped : Except PackagerFault Report × Packager × Disk :=
  run (overlapping.everything ((Sessions.start 1).run filing).workspace) (.start publishing) .blank

end Depot.Sample

namespace Depot.Packager

open Sample
open Disk (Location)

theorem run_apart_placed :
    (∃ part entries, Name.ofString "lib" = .ok part ∧ placed.2.1.output? "lib" = some entries ∧
      placed.2.2.Shows (Location.place [] out ++ [part]) entries) ∧
    ∃ part entries, Name.ofString "app" = .ok part ∧ placed.2.1.output? "app" = some entries ∧
      placed.2.2.Shows (Location.place [] out ++ [part]) entries := by
  have direct : Location.Direct [] out := Location.direct_of_downward (by decide +kernel) []
  let lib : Artifact := ⟨"lib", [.leaf (.file ⟨0, 1⟩)], 1⟩
  let app : Artifact := ⟨"app", [.leaf (.artifact "lib"), .leaf (.file ⟨0, 2⟩)], 2⟩
  have values : paired.registry.artifacts.values = [app, lib] := rfl
  have orderly : paired.registry.Orderly := by
    constructor
    · intro artifact registered
      rw [values] at registered
      rcases List.mem_pair.mp registered with rfl | rfl
      · exact ⟨⟨Bytes.ofString "app", by decide⟩, by decide +kernel⟩
      · exact ⟨⟨Bytes.ofString "lib", by decide⟩, by decide +kernel⟩
    · intro artifact registered
      rw [values] at registered
      rcases List.mem_pair.mp registered with rfl | rfl
      · exact fun name present => nomatch present
      · exact fun name present => nomatch present
  have orderlies : ∀ act ∈ filing.map Act.command, act.Orderly := by
    intro act present
    obtain ⟨request, _, rfl⟩ := List.mem_map.mp present
    exact .command request
  have meets : Disk.blank.Meets [] out none := Disk.meets_of_empty rfl rfl out
  have undisturbed : (Project.start 1 publishing).Undisturbed paired [] out none
      (filing.map .command ++ [.run paired.registry .everything .blank]) := ⟨meets, trivial⟩
  have separates : paired.hash.Separates
      ((Project.start 1 publishing).hashedAlong paired (filing.map .command) ++
        placed.2.1.hashed) := by
    simp only [placed, paired, single, Digest.blake3_eq_quick]
    decide +kernel
  have succeeded : placed.1 = .ok ⟨["app", "lib"], [], ⟨3, 0, 0⟩, 3⟩ := by decide +kernel
  obtain ⟨_, _, shown⟩ := @run_apart paired 1 publishing out [] rfl direct _ _ .everything
    .blank orderly
    orderlies undisturbed
  have each := shown Blake3.length_hash separates rfl _ succeeded
  exact ⟨each lib (by simp [values]), each app (by simp [values])⟩

/-- With a name that is no part of a location, one artifact removes what another one published. -/
theorem not_shows_overlapped :
    overlapped.1 = .ok ⟨["a", "a/"], [], ⟨1, 0, 0⟩, 1⟩ ∧ overlapped.2.1.unsynced = [] ∧
      ∃ entries, overlapped.2.1.output? "a" = some entries ∧
        ¬ overlapped.2.2.Shows
          [⟨Bytes.ofString "out", by decide⟩, ⟨Bytes.ofString "a", by decide⟩] entries := by
  let place : List Name := [⟨Bytes.ofString "out", by decide⟩, ⟨Bytes.ofString "a", by decide⟩]
  have told : (overlapped.2.1.output? "a").map (fun entries => Entry.shown? entries [left]) =
      some (some (.file text)) := by decide +kernel
  have stands : overlapped.2.2.thing? (place ++ [left]) = none := by decide +kernel
  obtain ⟨entries, output, shown⟩ := Option.map_eq_some_iff.mp told
  refine ⟨by decide +kernel, by decide +kernel, entries, output, fun shows => ?_⟩
  have same := (shows [left]).symm.trans stands
  rw [shown] at same
  cases same

end Depot.Packager

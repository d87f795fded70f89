import Depot.Proofs.Build.Origin
import Depot.Proofs.Packager.Frame

set_option autoImplicit false

namespace Depot

namespace Packager

open Assembler (Suits Kept Stems Lacks)
open Slot (At)

variable {job : Job} {packager : Packager} {disk : Disk} {artifact : Artifact} {report : Report}

/-- Nothing is to be built for an artifact: it has no output from its plan, and the change reaches
none of its slots. -/
def Idle (job : Job) (packager : Packager) (artifact : Artifact) (slots : List Slot) : Prop :=
  packager.current? artifact = none ∧ ∃ source, job.scope = .changed source ∧
    ∀ slot ∈ slots, job.workspace.reaches source slot.touches = .ok false

theorem idle_iff {slots : List Slot} {compression : Archive.Compression} :
    Idle job packager artifact slots ↔
      packager.current? artifact = none ∧ job.scope.isChange = true ∧
        ∀ slot ∈ slots, (job.assembler compression artifact.name).reached job.scope slot.touches =
          .ok false := by
  unfold Idle
  refine and_congr_right fun _ => ?_
  cases job.scope with
  | everything => simp [Scope.isChange]
  | stale => simp [Scope.isChange]
  | changed source => simp [Scope.isChange, Assembler.reached, Job.assembler]

/-- What an update that succeeds makes of an output: it leaves it if nothing is to be built. Else
slots get entries, and every entry suits the slot at its position or is kept from the output of the
same plan. -/
theorem update_stems (succeeded : (update job packager disk artifact).1 = .ok report) :
    let assembler := job.assembler packager.config.compression artifact.name
    let output? := (update job packager disk artifact).2.1.outputs.find? artifact.name
    ∃ slots, assembler.resolver.slots artifact.plan = .ok slots ∧
      (Idle job packager artifact slots → output? = packager.outputs.find? artifact.name) ∧
      (¬ Idle job packager artifact slots → ∃ entries,
        output? = some ⟨artifact.revision, entries⟩ ∧
        (∀ names slot, At slots names slot →
          ¬ Lacks assembler job.scope slots (packager.current? artifact) names →
          ∃ entry, Hierarchy.find? entries ⟨names⟩ = some entry) ∧
        ∀ names entry, Hierarchy.find? entries ⟨names⟩ = some entry →
          Stems assembler job.scope slots (packager.current? artifact) names entry) := by
  intro assembler
  have ends := update_ends job packager disk artifact
  generalize update job packager disk artifact = outcome at succeeded ends ⊢
  cases ends with
  | unbuilt _ => cases succeeded
  | refused _ _ => cases succeeded
  | nothing absent change built =>
    obtain ⟨slots, resolved, walked⟩ := Assembler.output_eq_ok.mp built
    have unreached := (Assembler.entries_eq_nil_iff walked).mp rfl
    have idle : Idle job packager artifact slots := idle_iff.mpr ⟨absent, change, unreached⟩
    exact ⟨slots, resolved, fun _ => rfl, fun busy => absurd idle busy⟩
  | @stored _ entries effort written built needed =>
    obtain ⟨slots, resolved, walked⟩ := Assembler.output_eq_ok.mp built
    obtain ⟨distinct, separate⟩ := Resolver.slots_separate resolved
    refine ⟨slots, resolved, fun idle => ?_, fun _ =>
      ⟨entries, ?_, fun names slot place supplied => ?_, fun names entry found => ?_⟩⟩
    · obtain ⟨absent, change, unreached⟩ :=
        (@idle_iff job packager artifact slots packager.config.compression).mp idle
      rw [absent] at walked
      have none := (Assembler.entries_eq_nil_iff walked).mpr unreached
      exact absurd change (by simp [needed absent none])
    · simp [store, NameMap.find?_insert]
    · exact (Assembler.entries_found place distinct separate walked).resolve_right supplied
    · exact Assembler.entries_stem distinct separate walked found

theorem Idle.congr {other : Packager} {slots : List Slot}
    (same : other.outputs.find? artifact.name = packager.outputs.find? artifact.name) :
    Idle job other artifact slots ↔ Idle job packager artifact slots := by
  unfold Idle
  rw [current?_congr same]

/-- After a plan was replaced, the next run that succeeds leaves an artifact alone if it has nothing
to build for it. Of any other artifact, slots get entries, and every entry suits the slot at its
position in the plans that are registered now; only an artifact whose own plan is another one keeps
entries from before, and only where the run does not build again what they stand for. -/
theorem run_after_replace {after : Packager} {disk' : Disk} {registry : Registry} {name : String}
    {plan : Plan} {former : Output} (ran : run job packager disk = (.ok report, after, disk'))
    (replaced : job.registry.find? name = (registry.replace name plan).2.find? name)
    (had : packager.outputs.find? name = some former)
    (older : former.revision ≤ registry.lastRevision) :
    ∀ artifact ∈ job.registry.artifacts.values,
      let assembler := job.assembler packager.config.compression artifact.name
      ∃ slots, assembler.resolver.slots artifact.plan = .ok slots ∧
        (Idle job packager artifact slots →
          after.outputs.find? artifact.name = packager.outputs.find? artifact.name) ∧
        (¬ Idle job packager artifact slots → ∃ entries,
          after.outputs.find? artifact.name = some ⟨artifact.revision, entries⟩ ∧
          (∀ names slot, At slots names slot →
            ¬ Lacks assembler job.scope slots (packager.current? artifact) names →
            ∃ entry, Hierarchy.find? entries ⟨names⟩ = some entry) ∧
          ∀ names entry, Hierarchy.find? entries ⟨names⟩ = some entry →
            (∃ slot, At slots names slot ∧ Suits assembler slot entry) ∨
            artifact.name ≠ name ∧ job.scope ≠ .everything ∧
              ∃ olds, packager.current? artifact = some olds ∧
                Kept assembler job.scope slots olds names entry) := by
  intro artifact registered assembler
  obtain ⟨_, each, _⟩ := run_report (congrArg Prod.fst ran)
  obtain ⟨own, _, packager', disk'', config, same, updated, stored⟩ :=
    exists_of_mem_left each registered
  rw [ran] at stored
  obtain ⟨slots, resolved, idle, busy⟩ := update_stems updated
  rw [config] at resolved
  rw [Idle.congr same, ← stored, same] at idle
  rw [Idle.congr same, ← stored, config, current?_congr same] at busy
  refine ⟨slots, resolved, idle, fun working => ?_⟩
  obtain ⟨entries, now, supplied, stems⟩ := busy working
  refine ⟨entries, now, supplied, fun names entry found => ?_⟩
  rcases stems names entry found with suits | ⟨olds, current, kept⟩
  · exact .inl suits
  · refine .inr ⟨?_, kept.not_everything, olds, current, kept⟩
    rintro rfl
    -- Its output is from an older plan, so nothing can be kept of it.
    have revision : artifact.revision = registry.lastRevision + 1 := by
      have known := Registry.find?_eq_some.mpr ⟨registered, rfl⟩
      rw [replaced, Registry.find?, Registry.replace, NameMap.find?_insert, if_pos rfl] at known
      exact (congrArg Artifact.revision (Option.some.inj known)).symm
    have outdated : former.revision ≠ artifact.revision := by omega
    simp [current?, had, outdated] at current

end Packager

namespace Sample

open Packager (Job run start)

def first : Plan := [.leaf (.file ⟨0, 1⟩)]

def second : Plan := [.leaf (.file ⟨0, 2⟩)]

def founded : Except PackagerFault Report × Packager × Disk :=
  run ((single first).everything ((Sessions.start 1).run filing).workspace) (start .standard) .blank

/-- A job for a change, after the second plan took the place of the first one. -/
def succeeding (source : Source) : Job where
  workspace := ((Sessions.start 1).run filing).workspace
  registry := ((single first).registry.replace "app" second).2
  hash := Digest.blake3
  scope := .changed source

theorem slots_second (source : Source) :
    ((succeeding source).assembler .none "app").resolver.slots second =
      .ok [.file right ⟨0, 2⟩] := by
  rw [Resolver.slots, Resolver.place]
  simp only [second, Resolver.expandList, Resolver.expand]
  rfl

end Sample

namespace Packager

open Sample
open Assembler (Suits)
open Slot (At)

theorem run_after_replace_reached :
    ∃ entries, (run (succeeding ⟨0, 2⟩) founded.2.1 .blank).2.1.outputs.find? "app" =
      some ⟨2, entries⟩ ∧
      ∀ names entry, Hierarchy.find? entries ⟨names⟩ = some entry →
        ∃ slot, At [.file right ⟨0, 2⟩] names slot ∧
          Suits ((succeeding ⟨0, 2⟩).assembler .none "app") slot entry := by
  have succeeded : (run (succeeding ⟨0, 2⟩) founded.2.1 .blank).1 =
      .ok ⟨["app"], [], ⟨1, 0, 0⟩, 0⟩ := by
    decide +kernel
  obtain ⟨former, had, older⟩ : ∃ former, founded.2.1.outputs.find? "app" = some former ∧
      former.revision ≤ 1 := by
    have known : (founded.2.1.outputs.find? "app").any (fun former => former.revision ≤ 1) =
        true := by
      decide +kernel
    obtain ⟨former, had, older⟩ := (Option.any_eq_true _ _).mp known
    exact ⟨former, had, of_decide_eq_true older⟩
  let artifact : Artifact := ⟨"app", second, 2⟩
  let ran := run (succeeding ⟨0, 2⟩) founded.2.1 .blank
  have whole : ran = (.ok ⟨["app"], [], ⟨1, 0, 0⟩, 0⟩, ran.2.1, ran.2.2) := Prod.ext succeeded rfl
  have replaced : (succeeding ⟨0, 2⟩).registry.find? "app" =
      ((single first).registry.replace "app" second).2.find? "app" := rfl
  have registered : artifact ∈ (succeeding ⟨0, 2⟩).registry.artifacts.values :=
    List.mem_singleton.mpr rfl
  have config : founded.2.1.config.compression = .none := by
    obtain ⟨_, _, _, config, _⟩ := run_alone _ (start .standard) .blank
    exact congrArg Config.compression config
  obtain ⟨slots, resolved, _, busy⟩ :=
    run_after_replace whole replaced had older artifact registered
  rw [config] at resolved busy
  obtain rfl := Except.ok.inj (resolved.symm.trans (slots_second _))
  have working : ¬ Idle (succeeding ⟨0, 2⟩) founded.2.1 artifact [.file right ⟨0, 2⟩] := by
    rintro ⟨_, source, same, unreached⟩
    obtain rfl : ⟨0, 2⟩ = source := Scope.changed.inj same
    have reached : (succeeding ⟨0, 2⟩).workspace.reaches ⟨0, 2⟩ [.file ⟨0, 2⟩] ≠ .ok false := by
      decide +kernel
    exact reached (unreached _ List.mem_cons_self)
  obtain ⟨entries, now, _, each⟩ := busy working
  refine ⟨entries, now, fun names entry found => ?_⟩
  rcases each names entry found with suits | ⟨other, _⟩
  · exact suits
  · exact absurd rfl other

/-- A change that the new plan does not depend on leaves the output of the former plan in place, at
a position that the new plan does not have. -/
theorem former_output_left :
    let ran := run (succeeding ⟨0, 1⟩) founded.2.1 .blank
    ran.1 = .ok .none ∧
      ((succeeding ⟨0, 1⟩).assembler .none "app").resolver.slots second = .ok [.file right ⟨0, 2⟩] ∧
      (∃ entries entry, ran.2.1.output? "app" = some entries ∧
        Hierarchy.find? entries ⟨[left]⟩ = some entry) ∧
      ∀ slot, ¬ At [.file right ⟨0, 2⟩] [left] slot := by
  intro ran
  refine ⟨by decide +kernel, slots_second _, ?_, fun slot place => ?_⟩
  · obtain ⟨entry, found⟩ : ∃ entry, ((ran.2.1.output? "app").bind fun entries =>
        Hierarchy.find? entries ⟨[left]⟩) = some entry :=
      Option.isSome_iff_exists.mp (by decide +kernel)
    obtain ⟨entries, output, there⟩ := Option.bind_eq_some_iff.mp found
    exact ⟨entries, entry, output, there⟩
  · generalize positioned : [left] = names at place
    cases place with
    | top present =>
      rw [List.mem_singleton.mp present] at positioned
      exact absurd positioned (by decide)
    | inside present _ =>
      cases List.mem_singleton.mp present

end Packager

end Depot

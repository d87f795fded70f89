import Depot.Proofs.Workspace.History
import Depot.Proofs.Packager.Replacement
import Depot.Proofs.Registry
import Mathlib.Data.List.Induction

set_option autoImplicit false

namespace Depot

def Act.registry? : Act → Option Registry
  | .command _ => none
  | .run registry _ _ => some registry

namespace Project

open Packager (Job)

variable {tools : Job} {start : Project} {name : String} {plan : Plan} {history : List Act}
  {entries : List Entry}

/-- Entries that the runs of a history built from one plan of an artifact. The last of these runs
had the plan for the artifact, and what it took for the output from before was built from the same
plan. -/
inductive Built (tools : Job) (start : Project) (name : String) (plan : Plan) :
    List Act → List Entry → Prop where
  | run {earlier : List Act} {registry : Registry} {scope : Scope} {disk : Disk}
    {artifact : Artifact}
    {entries : List Entry} {effort : Effort} (registered : registry.find? name = some artifact)
    (same : artifact.plan = plan)
    (taken : ∀ olds, (start.run tools earlier).packager.current? artifact = some olds →
      Built tools start name plan earlier olds)
    (built : (((start.run tools earlier).job tools registry scope).assembler
        (start.run tools earlier).packager.config.compression name).output scope plan
      ((start.run tools earlier).packager.current? artifact) = .ok (entries, effort)) :
    Built tools start name plan (earlier ++ [.run registry scope disk]) entries
  | later {earlier : List Act} {entries : List Entry} (act : Act)
    (kept : Built tools start name plan earlier entries) :
    Built tools start name plan (earlier ++ [act]) entries

/-- What is built from a plan is built by a run that has the plan. -/
theorem Built.exists_run (built : Built tools start name plan history entries) :
    ∃ registry artifact, registry ∈ history.filterMap Act.registry? ∧
      registry.find? name = some artifact ∧ artifact.plan = plan := by
  induction built with
  | @run earlier registry _ _ artifact _ _ registered same _ _ _ =>
    exact ⟨registry, artifact, by simp [Act.registry?], registered, same⟩
  | later act _ ih =>
    obtain ⟨registry, artifact, among, registered, same⟩ := ih
    exact ⟨registry, artifact, by simp [among], registered, same⟩

/-- An output was built from one plan if its revision stands for this plan in all registries that
the runs had. By induction on the history, from its end. -/
theorem built_of_revision {revision : Nat} (blank : start.packager.outputs.find? name = none)
    (stands : ∀ registry ∈ history.filterMap Act.registry?, ∀ artifact,
      registry.find? name = some artifact → artifact.revision = revision → artifact.plan = plan)
    (found : (start.run tools history).packager.outputs.find? name = some ⟨revision, entries⟩) :
    Built tools start name plan history entries := by
  induction history using List.reverseRecOn generalizing entries with
  | nil => cases blank.symm.trans found
  | append_singleton earlier act ih =>
    rw [List.filterMap_append] at stands
    have earlierStands := fun registry among => stands registry (List.mem_append_left _ among)
    have runs : start.run tools (earlier ++ [act]) = (start.run tools earlier).step tools act :=
      List.foldl_append
    rw [runs] at found
    cases act with
    | command request => exact (ih earlierStands found).later _
    | run registry scope disk =>
      rcases Packager.run_outputs _ _ _ found with kept | ⟨artifact, effort, registered, rfl, built⟩
      · exact (ih earlierStands kept).later _
      · obtain rfl := (Registry.find?_eq_some.mp registered).2
        obtain rfl := stands registry (List.mem_append_right _ List.mem_cons_self) artifact
          registered rfl
        refine .run registered rfl (fun olds taken => ?_) built
        exact ih earlierStands (Packager.current?_eq_some.mp taken)

/-- What a run takes for the output of an artifact from before is what is stored with the revision
that the artifact has now. It was built from the plan that the artifact has now, if each registry
that a run had before became the one of this run, or has no revision of the artifact that stands for
another plan in it. -/
theorem taken_built (tools : Job) (volumes : Nat) (config : Config) (history : List Act)
    {registry : Registry} (scope : Scope) (disk : Disk)
    (related : ∀ former ∈ history.filterMap Act.registry?,
      former.Precedes registry ∨ former.Agrees registry)
    {before after : List Artifact} {artifact : Artifact}
    (turn : registry.artifacts.values = before ++ artifact :: after) (entries : List Entry) :
    let project := (Project.start volumes config).run tools history
    let taken := (Packager.updateEach (project.job tools registry scope) project.packager disk
      before).2.1.current? artifact
    (taken = some entries ↔
      project.packager.outputs.find? artifact.name = some ⟨artifact.revision, entries⟩) ∧
    (taken = some entries →
      Built tools (.start volumes config) artifact.name artifact.plan history entries) := by
  intro project taken
  have registered : registry.find? artifact.name = some artifact :=
    Registry.find?_eq_some.mpr ⟨by simp [turn], rfl⟩
  have distinct := registry.names_nodup
  rw [turn, List.map_append, List.nodup_append'] at distinct
  obtain ⟨first, _, apart⟩ := distinct
  have outside : artifact.name ∉ before.map Artifact.name := fun among =>
    List.disjoint_left.mp apart among List.mem_cons_self
  -- The artifacts before it leave the output as it was before the run.
  obtain ⟨_, frame, _⟩ := @Packager.updateEach_alone (project.job tools registry scope) _ first
    project.packager disk
  have stored : taken = some entries ↔
      project.packager.outputs.find? artifact.name = some ⟨artifact.revision, entries⟩ := by
    rw [← Packager.current?_eq_some, ← Packager.current?_congr (frame _ outside)]
  refine ⟨stored, fun held => ?_⟩
  refine built_of_revision rfl (fun former among one found same => ?_) (stored.mp held)
  rcases related former among with precedes | agrees
  · exact precedes.agrees found registered same
  · exact agrees found registered same

end Project

namespace Sample

/-- Two files are created, and everything is built. -/
def building (registry : Registry) : List Act :=
  filing.map .command ++ [.run registry .everything .blank]

def erected (registry : Registry) : Project :=
  (Project.start 1 .standard).run (single []) (building registry)

def small : Registry := Registry.empty.run [.add "lib" first]

/-- The same registry later, with another artifact before that one. -/
def grown : Registry := small.run [.add "lib" second, .add "app" pair]

/-- What comes before the turn of that artifact in a run by stamps. -/
def advanced : Packager :=
  (Packager.updateEach ((erected small).job (single []) grown .stale)
    (erected small).packager .blank
    [⟨"app", pair, 2⟩]).2.1

end Sample

namespace Project

open Sample

theorem taken_built_grown :
    ∃ entries, advanced.current? ⟨"lib", first, 1⟩ = some entries ∧
      Built (single []) (.start 1 .standard) "lib" first (building small) entries := by
  have precedes : small.Precedes grown := ⟨_, _, rfl, rfl⟩
  have related : ∀ former ∈ (building small).filterMap Act.registry?,
      former.Precedes grown ∨ former.Agrees grown := fun former among =>
    .inl (List.mem_singleton.mp among ▸ precedes)
  have turn : grown.artifacts.values = [⟨"app", pair, 2⟩] ++ ⟨"lib", first, 1⟩ :: [] := rfl
  obtain ⟨entries, taken⟩ : ∃ entries, advanced.current? ⟨"lib", first, 1⟩ = some entries :=
    Option.isSome_iff_exists.mp (by decide +kernel)
  exact ⟨entries, taken,
    (taken_built (single []) 1 .standard (building small) .stale .blank related turn entries).2
      taken⟩

/-- A registry that was started anew has the revision of the former plan for another one, and a run
takes what was built from the former plan. -/
theorem not_built_anew :
    (single second).registry.artifacts.values = [⟨"app", second, 1⟩] ∧
    ∃ entries, (erected (single first).registry).packager.current? ⟨"app", second, 1⟩ =
      some entries ∧
      ¬ Built (single []) (.start 1 .standard) "app" second (building (single first).registry)
        entries := by
  refine ⟨rfl, ?_⟩
  obtain ⟨entries, taken⟩ : ∃ entries,
      (erected (single first).registry).packager.current? ⟨"app", second, 1⟩ = some entries :=
    Option.isSome_iff_exists.mp (by decide +kernel)
  refine ⟨entries, taken, fun built => ?_⟩
  obtain ⟨registry, artifact, among, registered, same⟩ := built.exists_run
  obtain rfl := List.mem_singleton.mp among
  have known : (single first).registry.find? "app" = some ⟨"app", first, 1⟩ := rfl
  obtain rfl := Option.some.inj (known.symm.trans registered)
  exact absurd same (by simp [first, second])

end Project

end Depot

import Depot.Proofs.Build.Origin
import Depot.Proofs.Packager.Everything
import Depot.Proofs.Packager.Frame
import Depot.Proofs.Workspace.History

set_option autoImplicit false

namespace Depot

namespace Packager

open Assembler (Suits Lacks)
open Slot (At ReachedThrough)

variable {job : Job} {packager : Packager} {disk : Disk} {artifact : Artifact}

/-- A run builds what is at a position of an output anew: it succeeds, and it is a build of
everything, or its change reaches the slot there and all slots around it, or there was nothing at
the position. -/
def Rebuilds (job : Job) (packager : Packager) (disk : Disk) (artifact : Artifact)
    (names : List Name) : Prop :=
  (∃ report, (run job packager disk).1 = .ok report) ∧
    (job.scope = .everything ∨
      (∃ changed slots, job.scope = .changed changed ∧
        (job.assembler packager.config.compression artifact.name).resolver.slots artifact.plan =
          .ok slots ∧ ReachedThrough job.workspace changed slots names) ∨
      ∀ previous ∈ packager.current? artifact, Hierarchy.find? previous ⟨names⟩ = none)

end Packager

namespace Project

open Packager (Job)
open Slot (At)

variable {tools : Job} {registry : Registry} {artifact : Artifact} {begun : Project}

def assembler (project : Project) (tools : Job) (registry : Registry) (artifact : Artifact) :
    Assembler :=
  (project.job tools registry .everything).assembler project.packager.config.compression
    artifact.name

/-- Something that happens builds what is at a position of an output anew. -/
def Rebuilds (project : Project) (tools : Job) (artifact : Artifact) (names : List Name) :
    Act → Prop
  | .command _ => False
  | .run registry scope disk =>
    Packager.Rebuilds (project.job tools registry scope) project.packager disk artifact names

/-- After what happened, an entry is the one that was built when its position was built last: it has
what the source of the slot that had the position then held then, if this was a file, and nothing
built it anew since. -/
inductive LastBuilt (tools : Job) (artifact : Artifact) (begun : Project) (names : List Name)
    (entry : Entry) : List Act → Prop where
  | built {past : List Act} {registry : Registry} {scope : Scope} {disk : Disk} {slots : List Slot}
    {slot : Slot}
    (resolved : ((begun.run tools past).assembler tools registry artifact).resolver.slots
      artifact.plan = .ok slots)
    (place : At slots names slot)
    (held : ∀ name source, slot = .file name source →
      entry.HeldBy source [(begun.run tools past).sessions.workspace]) :
    LastBuilt tools artifact begun names entry (past ++ [.run registry scope disk])
  | kept {past : List Act} {act : Act} (earlier : LastBuilt tools artifact begun names entry past)
    (stays : ¬ (begun.run tools past).Rebuilds tools artifact names act) :
    LastBuilt tools artifact begun names entry (past ++ [act])

theorem LastBuilt.ne_nil {names : List Name} {entry : Entry} {history : List Act}
    (built : LastBuilt tools artifact begun names entry history) : history ≠ [] := by
  cases built <;> simp

theorem run_concat (project : Project) (history : List Act) (act : Act) :
    project.run tools (history ++ [act]) = (project.run tools history).step tools act := by
  rw [run, run, List.foldl_append]
  rfl

/-- In what the runs of a history work with, a plan has no slot at a position but for one source. -/
def Reserved (tools : Job) (artifact : Artifact) (names : List Name) (source : Source)
    (project : Project) (history : List Act) : Prop :=
  ∀ front registry scope disk rest, history = front ++ .run registry scope disk :: rest →
    ∀ slots, ((project.run tools front).assembler tools registry artifact).resolver.slots
      artifact.plan = .ok slots → ∀ slot, At slots names slot → ∃ name, slot = .file name source

theorem Reserved.left {names : List Name} {source : Source} {project : Project}
    {first second : List Act}
    (reserved : Reserved tools artifact names source project (first ++ second)) :
    Reserved tools artifact names source project first := by
  rintro front registry scope disk rest rfl
  exact reserved front registry scope disk (rest ++ second) (by simp)

end Project

namespace Packager

open Assembler (Lacks)
open Slot (At)
open Project (LastBuilt Reserved)

end Packager

namespace Sample

open Packager (run)
open Slot (At)

def other : Name := ⟨Bytes.ofString "other", by decide⟩

/-- A project with two files, before it is built. -/
def unbuilt : Project :=
  ⟨(Sessions.start 1).run filing, .start .standard⟩

def compiling (plan : Plan) : Act :=
  .run (single plan).registry .everything .blank

/-- The first file gets another name. -/
def relabeling : List Act :=
  [.command ⟨0, .rename 1 "user" "other"⟩]

def handed : List Slot :=
  [.file other ⟨0, 1⟩, .file left ⟨0, 2⟩]

def renamed (plan : Plan) : Project :=
  (unbuilt.step (single plan) (compiling plan)).run (single plan) relabeling

end Sample

namespace Packager

open Sample
open Assembler (Lacks)
open Slot (At)

end Packager

end Depot

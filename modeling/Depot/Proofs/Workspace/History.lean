import Depot.Packager
import Depot.Proofs.Workspace

set_option autoImplicit false

namespace Depot

open FileSystem (Session Command)

/-- A command for one of several file systems. -/
structure Request where
  volume : Nat
  command : Command

/-- Sessions side by side, one for each file system of a workspace. -/
abbrev Sessions := List Session

namespace Sessions

/-- New file systems without streams. -/
def start (count : Nat) : Sessions :=
  List.replicate count .start

def workspace (sessions : Sessions) : Workspace :=
  sessions.map Session.files

def step (sessions : Sessions) (request : Request) : Sessions :=
  sessions.modify request.volume fun session => session.step request.command

def touches (sessions : Sessions) (request : Request) : List Source :=
  match sessions[request.volume]? with
  | some session => (session.touches request.command).map fun node => ⟨request.volume, node⟩
  | none => []

def run (sessions : Sessions) (requests : List Request) : Sessions :=
  requests.foldl step sessions

def touched (sessions : Sessions) : List Request → List Source
  | [] => []
  | request :: rest => sessions.touches request ++ (sessions.step request).touched rest

theorem run_append (sessions : Sessions) (first second : List Request) :
    sessions.run (first ++ second) = (sessions.run first).run second := by
  simp [run]

theorem volume_workspace (sessions : Sessions) (index : Nat) :
    sessions.workspace.volume index = (sessions[index]?.getD .start).files := by
  simp only [workspace, Workspace.volume, List.getD_eq_getElem?_getD, List.getElem?_map]
  cases sessions[index]? <;> rfl

theorem start_trees (count : Nat) : (start count).workspace.Trees := by
  intro index
  have same : (start count)[index]?.getD .start = .start := by
    simp only [start, List.getElem?_replicate]
    split <;> rfl
  rw [volume_workspace, same]
  exact FileSystem.Tree.empty

theorem volume_of_touches {sessions : Sessions} {request : Request} {source : Source}
    (touched : source ∈ sessions.touches request) : source.volume = request.volume := by
  unfold touches at touched
  split at touched
  · obtain ⟨node, _, rfl⟩ := List.mem_map.mp touched
    rfl
  · cases touched

/-- What a command does to each of the file systems. -/
theorem step_continues {sessions : Sessions} (trees : sessions.workspace.Trees) (request : Request)
    (index : Nat) :
    FileSystem.Continues (((sessions.touches request).filter (·.volume = index)).map Source.node)
      (sessions.workspace.volume index) ((sessions.step request).workspace.volume index) := by
  have tree := trees index
  rw [volume_workspace] at tree
  rw [volume_workspace, volume_workspace, step, List.getElem?_modify]
  by_cases addressed : request.volume = index
  · subst addressed
    rw [touches]
    cases found : sessions[request.volume]? with
    | none => exact ⟨.empty, .refl _⟩
    | some session =>
      rw [found] at tree
      have continues := Session.step_continues tree request.command
      simpa [List.filter_map, Function.comp_def] using continues
  · have apart : (sessions.touches request).filter (·.volume = index) = [] := by
      refine List.filter_eq_nil_iff.mpr fun source touched => ?_
      simpa [volume_of_touches touched] using addressed
    simp only [apart, addressed, if_false, id_map', List.map_nil]
    exact ⟨tree, .refl _⟩

end Sessions

namespace Workspace

theorem Evolves.refl {workspace : Workspace} (trees : workspace.Trees) :
    Evolves [] workspace workspace :=
  ⟨trees, trees, fun _ => .refl _⟩

theorem Evolves.trans {first second : List Source} {before between after : Workspace}
    (here : Evolves first before between) (there : Evolves second between after) :
    Evolves (first ++ second) before after where
  earlier := here.earlier
  later := there.later
  follows index := by
    rw [List.filter_append, List.map_append]
    exact (here.follows index).trans (there.follows index)

theorem Evolves.mono {pending more : List Source} (subset : pending ⊆ more)
    {before after : Workspace} (evolves : Evolves pending before after) :
    Evolves more before after where
  earlier := evolves.earlier
  later := evolves.later
  follows index := by
    refine (evolves.follows index).mono fun node present => ?_
    exact mem_touched.mpr (subset (mem_touched.mp present))

/-- One step of a history. -/
theorem step_evolves {sessions : Sessions} (trees : sessions.workspace.Trees) (request : Request) :
    Evolves (sessions.touches request) sessions.workspace (sessions.step request).workspace where
  earlier := trees
  later index := (Sessions.step_continues trees request index).tree
  follows index := (Sessions.step_continues trees request index).follows

/-- All steps of a history, by induction on the commands. -/
theorem run_evolves {sessions : Sessions} (trees : sessions.workspace.Trees)
    (requests : List Request) :
    Evolves (sessions.touched requests) sessions.workspace (sessions.run requests).workspace := by
  induction requests generalizing sessions with
  | nil => exact .refl trees
  | cons request rest ih =>
    have first := step_evolves trees request
    exact first.trans (ih first.later)

end Workspace

/-- What happens in a project. Between two runs, any artifacts may be registered or replaced, and
anything may happen to the disk. -/
inductive Act where
  | command (request : Request)
  | run (registry : Registry) (scope : Scope) (disk : Disk)

/-- File systems in use, and the packager that packages what they hold. -/
structure Project where
  sessions : Sessions
  packager : Packager

namespace Project

/-- A project at its start, with some new file systems. -/
def start (volumes : Nat) (config : Config) : Project :=
  ⟨.start volumes, .start config⟩

/-- What a run in a project works with; the job says how to hash and how to compress. -/
def job (project : Project) (job : Packager.Job) (registry : Registry) (scope : Scope) :
    Packager.Job :=
  { job with workspace := project.sessions.workspace, registry, scope }

def step (tools : Packager.Job) (project : Project) : Act → Project
  | .command request => { project with sessions := project.sessions.step request }
  | .run registry scope disk =>
    { project with
      packager := (Packager.run (project.job tools registry scope) project.packager disk).2.1 }

def run (tools : Packager.Job) (project : Project) (history : List Act) : Project :=
  history.foldl (step tools) project

def workspaces (tools : Packager.Job) (project : Project) : List Act → List Workspace
  | [] => []
  | .command request :: rest => (project.step tools (.command request)).workspaces tools rest
  | .run registry scope disk :: rest =>
    project.sessions.workspace :: (project.step tools (.run registry scope disk)).workspaces tools
      rest

end Project

end Depot

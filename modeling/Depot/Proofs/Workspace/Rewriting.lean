import Depot.Proofs.Workspace.History

set_option autoImplicit false

namespace Depot

namespace FileSystem

def Command.keepsTree : Command → Bool
  | createFile .. | createDirectory .. | rename .. | delete .. => false
  | setContent .. | setWritable .. | nextStamp | openStream .. | write .. | closeStream .. |
    dropStream .. => true

theorem Alike.refl (fs : FileSystem) : Alike fs fs :=
  ⟨rfl, fun _ => rfl, fun _ => rfl, fun _ => rfl, fun _ => rfl, rfl⟩

theorem Alike.trans {before middle after : FileSystem} (here : Alike before middle)
    (there : Alike middle after) : Alike before after where
  length := there.length.trans here.length
  place id := (there.place id).trans (here.place id)
  children id := (there.children id).trans (here.children id)
  live id := (there.live id).trans (here.live id)
  kind id := (there.kind id).trans (here.kind id)
  created := there.created.trans here.created

/-- A change that leaves the nodes where they are is taken over or refused. -/
theorem Session.adopt_alike {session : Session} {result : Except Fault FileSystem}
    {touched : FileSystem → List NodeId}
    (changes : ∀ after, result = .ok after → Alike session.files after) :
    Alike session.files (session.adopt result touched).2.files := by
  cases result with
  | error fault => exact .refl _
  | ok after => exact changes after rfl

/-- One step of a history. -/
theorem Session.step_alike {session : Session} {command : Command}
    (keeps : command.keepsTree = true) :
    Alike session.files (session.step command).files := by
  have still : Alike session.files session.files := .refl _
  cases command with
  | createFile path content => cases keeps
  | createDirectory path => cases keeps
  | rename id requestor name => cases keeps
  | delete id requestor => cases keeps
  | setContent id requestor content announce =>
    exact adopt_alike fun after changed => (setContent_alike changed).1
  | setWritable id writable => exact (@setWritable_alike session.files id writable).1
  | nextStamp => exact ⟨rfl, fun _ => rfl, fun _ => rfl, fun _ => rfl, fun _ => rfl, rfl⟩
  | openStream id requestor stamp =>
    simp only [step, perform]
    cases session.files.openStream id requestor stamp with
    | ok stream => exact still
    | error fault => exact still
  | write stream data => exact still
  | closeStream index =>
    simp only [step, perform]
    cases session.stream? index with
    | none => exact still
    | some stream =>
      have closes := fun after changed => (@closeStream_alike session.files after stream changed).1
      exact @adopt_alike (session.withoutStream index) _ _ closes
  | dropStream stream => exact still

end FileSystem

namespace Workspace

/-- Two workspaces have the same nodes in the same places. -/
def Alike (before after : Workspace) : Prop :=
  ∀ index, FileSystem.Alike (before.volume index) (after.volume index)

/-- One step of a history of several file systems. -/
theorem step_alike {sessions : Sessions} {request : Request}
    (keeps : request.command.keepsTree = true) :
    Alike sessions.workspace (sessions.step request).workspace := by
  intro index
  rw [Sessions.volume_workspace, Sessions.volume_workspace, Sessions.step, List.getElem?_modify]
  by_cases addressed : request.volume = index
  · subst addressed
    cases sessions[request.volume]? with
    | none => exact .refl _
    | some session => simpa using @FileSystem.Session.step_alike session _ keeps
  · simp only [addressed, if_false, id_map']
    exact .refl _

/-- All steps, by induction on the commands. -/
theorem run_alike {sessions : Sessions} {requests : List Request}
    (keep : ∀ request ∈ requests, request.command.keepsTree = true) :
    Alike sessions.workspace (sessions.run requests).workspace := by
  induction requests generalizing sessions with
  | nil => exact fun _ => .refl _
  | cons request rest ih =>
    have first := @step_alike sessions request (keep request List.mem_cons_self)
    have later := @ih (sessions.step request) fun other present =>
      keep other (List.mem_cons_of_mem _ present)
    exact fun index => (first index).trans (later index)

namespace Alike

variable {before after : Workspace} (alike : Alike before after)

include alike

theorem isLive (source : Source) : after.isLive source = before.isLive source :=
  (alike source.volume).live source.node

theorem isDirectory (source : Source) : after.isDirectory source = before.isDirectory source :=
  (alike source.volume).kind source.node

theorem name (source : Source) : after.name source = before.name source := by
  have same := (alike source.volume).place source.node
  rw [Workspace.name, Workspace.name, FileSystem.name, FileSystem.name, home, home, same]

theorem path (source : Source) : after.path source = before.path source :=
  FileSystem.path_congr (alike source.volume).place

theorem children (source : Source) : after.children source = before.children source := by
  have same := (alike source.volume).children source.node
  rw [Workspace.children, Workspace.children, home, home, same]

theorem length (source : Source) :
    (after.home source).nodes.length = (before.home source).nodes.length :=
  (alike source.volume).length

/-- What could be read still can. -/
theorem exists_read {source : Source} {content : Bytes} (read : before.read source = .ok content) :
    ∃ content', after.read source = .ok content' := by
  have alive := (alike.isLive source).trans (read_eq_ok.mp read).1
  have plain := (alike.isDirectory source).trans (FileSystem.isDirectory_of_read read)
  exact FileSystem.exists_read alive plain

end Alike

end Workspace

end Depot

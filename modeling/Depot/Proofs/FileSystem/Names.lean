import Depot.Proofs.FileSystem.History
import Depot.Proofs.Path
import Depot.Proofs.Workspace.History

set_option autoImplicit false

namespace Depot

namespace FileSystem

/-- The names of all nodes, those of deleted ones too, are texts. -/
def Textual (fs : FileSystem) : Prop :=
  ∀ id place, fs.place? id = some place → place.name.Textual

variable {fs after : FileSystem}

theorem Textual.empty : Textual .empty := by
  intro id place placed
  cases id with
  | zero => cases placed
  | succ id => cases placed

theorem Textual.congr (textual : fs.Textual) (same : ∀ id, after.place? id = fs.place? id) :
    after.Textual :=
  fun id place placed => textual id place (same id ▸ placed)

theorem Textual.insert (textual : fs.Textual) (parent : NodeId) {name : Name} (content : Content)
    (text : name.Textual) : (fs.insert parent name content).2.Textual := by
  intro id place placed
  rw [place?_insert] at placed
  split at placed
  · cases placed
    exact text
  · exact textual id place placed

theorem Textual.makeDirectories {names : List Name} (texts : ∀ name ∈ names, name.Textual) :
    ∀ {fs : FileSystem} {id last : NodeId}, fs.Textual →
      fs.makeDirectories id names = .ok (last, after) → after.Textual := by
  induction names with
  | nil =>
    intro fs id last textual made
    cases made
    exact textual
  | cons name rest ih =>
    intro fs id last textual made
    have later : ∀ name ∈ rest, name.Textual :=
      fun name present => texts name (List.mem_cons_of_mem _ present)
    unfold FileSystem.makeDirectories at made
    split at made
    · split at made
      · exact ih later textual made
      · cases made
    · exact ih later (textual.insert id _ (texts name List.mem_cons_self)) made

theorem Textual.createDirectory (textual : fs.Textual) {id : NodeId} {text : String}
    (made : fs.createDirectory text = .ok (id, after)) : after.Textual := by
  obtain ⟨path, read, made⟩ := createDirectory_eq_ok.mp made
  exact Textual.makeDirectories (Path.textual_of_ofString read) textual made

theorem Textual.createFile (textual : fs.Textual) {id : NodeId} {text : String} {content : Bytes}
    (made : fs.createFile text content = .ok (id, after)) : after.Textual := by
  obtain ⟨path, around, name, directory, middle, read, names, placed, _, inserted⟩ :=
    createFile_eq_ok.mp made
  have texts := Path.textual_of_ofString read
  rw [names] at texts
  have between :=
    Textual.makeDirectories (fun name present => texts name (List.mem_append_left _ present))
    textual placed
  have grown := between.insert directory (.file content) (texts name (by simp))
  rwa [inserted] at grown

theorem Textual.rename (textual : fs.Textual) {id : NodeId} {requestor text : String}
    (renamed : fs.rename id requestor text = .ok after) : after.Textual := by
  rcases rename_eq_ok renamed with rfl | ⟨parent, old, name, read, _, _, _, change⟩
  · exact textual
  · intro other place placed
    rw [change.place] at placed
    split at placed
    · cases placed
      exact Name.textual_of_ofString read
    · exact textual other place placed

namespace Session

variable {session : Session}

/-- One step of a history. -/
theorem step_textual (tree : Tree session.files) (textual : session.files.Textual)
    (command : Command) : (session.step command).files.Textual := by
  rcases session.step_cases command with ⟨_, same⟩ | ⟨_, made⟩
  · rw [same]
    exact textual
  generalize (session.step command).files = after at made ⊢
  cases made with
  | createFile made => exact textual.createFile made
  | createDirectory made => exact textual.createDirectory made
  | rename renamed => exact textual.rename renamed
  | setContent changed => exact textual.congr (setContent_alike changed).1.place
  | setWritable => exact textual.congr setWritable_alike.1.place
  | delete deleted =>
    obtain ⟨parent, _, _, change⟩ := tree.delete_eq_ok deleted
    exact textual.congr change.place
  | nextStamp => exact textual.congr fun _ => rfl
  | closeStream _ closed => exact textual.congr (closeStream_alike closed).1.place
  | openStream | write | closeNothing | dropStream => exact textual

end Session

end FileSystem

def Workspace.Textual (workspace : Workspace) : Prop :=
  ∀ index, (workspace.volume index).Textual

theorem Workspace.Textual.name {workspace : Workspace} (textual : workspace.Textual)
    {source : Source} {name : Name} (named : workspace.name source = .ok name) : name.Textual := by
  unfold Workspace.name FileSystem.name at named
  split at named
  · next place placed =>
    cases named
    exact textual source.volume source.node place placed
  · cases named

namespace Sessions

theorem start_textual (count : Nat) : (start count).workspace.Textual := by
  intro index
  have same : (start count)[index]?.getD .start = .start := by
    simp only [start, List.getElem?_replicate]
    split <;> rfl
  rw [volume_workspace, same]
  exact FileSystem.Textual.empty

theorem step_textual {sessions : Sessions} (trees : sessions.workspace.Trees)
    (textual : sessions.workspace.Textual) (request : Request) :
    (sessions.step request).workspace.Textual := by
  intro index
  have tree := trees index
  have before := textual index
  rw [volume_workspace] at tree before ⊢
  rw [step, List.getElem?_modify]
  cases found : sessions[index]? with
  | none => exact FileSystem.Textual.empty
  | some session =>
    rw [found] at tree before
    by_cases addressed : request.volume = index
    · simp only [addressed, if_true]
      exact FileSystem.Session.step_textual tree before request.command
    · simp only [addressed, if_false]
      exact before

end Sessions

end Depot

import Depot.Proofs.FileSystem.Stepwise
import Depot.Proofs.FileSystem.Refinement
import Mathlib.Data.List.Induction

set_option autoImplicit false

namespace Depot.FileSystem

namespace Edit

variable {fs after : FileSystem}

/-- The file system with a new node in a directory, before this is told. -/
def attached (fs : FileSystem) (parent : NodeId) (name : Name) (content : Content) : FileSystem :=
  let node : Node :=
    { place? := some { parent, name }, content, stamp := fs.lastStamp + 1, writable := true,
      live := true }
  { fs with
    nodes := (fs.nodes ++ [node]).modify parent (Node.relist (· ++ [fs.nodes.length]))
    lastStamp := fs.lastStamp + 1 }

theorem attach_bind {α : Type} {parent : NodeId} {name : Name} {content : Content}
    {next : NodeId → Edit α} :
    (takeStamp >>= fun stamp => attach parent name content stamp >>= next) fs =
      next fs.nodes.length (attached fs parent name content) := rfl

theorem modify_append_left {α : Type} {front rest : List α} {index : Nat} {change : α → α}
    (inside : index < front.length) :
    (front ++ rest).modify index change = front.modify index change ++ rest := by
  induction front generalizing index with
  | nil => cases inside
  | cons value front ih =>
    cases index with
    | zero => rfl
    | succ index => simpa using ih (by simpa using inside)

theorem told_append (first second : List Event) :
    fs.told (first ++ second) = (fs.told first).told second := by
  simp [told]

theorem path_told {events : List Event} (id : NodeId) : (fs.told events).path id = fs.path id :=
  path_congr fun _ => rfl

/-- Once it is told, a node that is put into a directory in place is one that is added as a whole.
-/
theorem attached_told {parent : NodeId} {name : Name} {content : Content} {events : List Event}
    (tree : Tree (fs.told events)) (alive : fs.isLive parent = true)
    (directory : fs.isDirectory parent = true) (absent : fs.child? parent name = none)
    (childless : content.listing = []) :
    (fs.told events).insert parent name content =
      (fs.nodes.length, (attached fs parent name content).told
        (events ++ [.created fs.nodes.length ((fs.path parent).push name)])) := by
  let added : FileSystem :=
    { ((fs.told events).insert parent name content).2 with log := fs.log ++ events }
  -- the node comes before the list of its directory
  have order : (attached fs parent name content).nodes = added.nodes :=
    modify_append_left (lt_length_of_isLive alive)
  have later := tree.insert alive directory absent childless
  have place : added.path fs.nodes.length = (fs.path parent).push name := by
    rw [← path_told parent, ← path_insert_new later alive]
    exact path_congr fun _ => rfl
  let done (nodes : List Node) (path : Path) : NodeId × FileSystem :=
    (fs.nodes.length, ⟨nodes, fs.lastStamp + 1,
      fs.log ++ events ++ [.created fs.nodes.length path]⟩)
  rw [told_append]
  exact congrArg₂ done order.symm place

/-- A directory was just made at a path, and nothing is in it. The events are still to be told. -/
structure Fresh (id : NodeId) (path : Path) (events : List Event) (fs : FileSystem) : Prop where
  tree : Tree (fs.told events)
  live : fs.isLive id = true
  kind : fs.isDirectory id = true
  childless : fs.children id = []
  path : fs.path id = path

theorem attached_fresh {parent : NodeId} {name : Name} {events : List Event}
    (tree : Tree (fs.told events)) (alive : fs.isLive parent = true)
    (directory : fs.isDirectory parent = true) (absent : fs.child? parent name = none) :
    Fresh fs.nodes.length ((fs.path parent).push name)
      (events ++ [.created fs.nodes.length ((fs.path parent).push name)])
      (attached fs parent name (.directory [])) := by
  have childless : (Content.directory []).listing = [] := rfl
  have grown := attached_told tree alive directory absent childless
  have whole := tree.insert alive directory absent childless
  have live := isLive_insert (fs.told events) parent name (.directory []) fs.nodes.length
  have kind := isDirectory_insert (fs.told events) parent name (.directory []) fs.nodes.length
  have listed := children_insert (fs.told events) parent name (.directory []) directory
    fs.nodes.length
  have path := path_insert_new whole alive
  rw [grown] at whole live kind listed path
  refine ⟨whole, live.trans (if_pos rfl), kind.trans (if_pos rfl), listed.trans (if_pos rfl), ?_⟩
  exact (path_told _).symm.trans (path.trans (congrArg (·.push name) (path_told parent)))

theorem child?_of_childless {id : NodeId} (childless : fs.children id = []) (name : Name) :
    fs.child? id name = none := by
  simp [child?, childless]

/-- Following names from an empty directory cannot fail, as nothing is in the way. -/
theorem makeDirectories_of_childless {id : NodeId} (names : List Name)
    (directory : fs.isDirectory id = true) (childless : fs.children id = []) :
    ∃ last after, fs.makeDirectories id names = .ok (last, after) ∧ after.children last = [] := by
  induction names generalizing fs id with
  | nil => exact ⟨id, fs, rfl, childless⟩
  | cons name rest ih =>
    have absent := child?_of_childless childless name
    let grown := (fs.insert id name (.directory [])).2
    have kind : grown.isDirectory fs.nodes.length = true := by
      simp [grown, isDirectory_insert]
    have empty : grown.children fs.nodes.length = [] := by
      simp [grown, children_insert, directory, Content.listing]
    unfold FileSystem.makeDirectories
    simp only [absent]
    exact ih kind empty

/-- What following names comes to as a whole and in place: it is refused before anything is done, or
nothing has to be done, or it ends in a directory that was made for it, in which nothing is. -/
inductive Trodden (before : FileSystem) (events : List Event) :
    Except Fault (NodeId × FileSystem) →
      EStateM.Result Fault FileSystem (NodeId × List Event) → Prop where
  | refused {fault : Fault} : Trodden before events (.error fault) (.error fault before)
  | there {last : NodeId} :
    Trodden before events (.ok (last, before.told events)) (.ok (last, events) before)
  | made {last : NodeId} {after : FileSystem} {later : List Event}
    (childless : after.children last = []) :
    Trodden before events (.ok (last, after.told later)) (.ok (last, later) after)

/-- No fault is possible once the first directory was made. By induction on the names. -/
theorem makeDirectories_trodden {id : NodeId} {names : List Name} {events : List Event}
    (tree : Tree (fs.told events)) (alive : fs.isLive id = true)
    (directory : fs.isDirectory id = true) :
    Trodden fs events ((fs.told events).makeDirectories id names)
      (makeDirectories id (fs.path id) events names fs) := by
  induction names generalizing fs id events with
  | nil => exact .there
  | cons name rest ih =>
    unfold FileSystem.makeDirectories makeDirectories
    rw [get_bind]
    have same : (fs.told events).child? id name = fs.child? id name := rfl
    rw [same]
    cases found : fs.child? id name with
    | some child =>
      obtain ⟨live, below⟩ := tree.path_child? alive found
      have path : fs.path child = (fs.path id).push name := by
        rwa [path_told, path_told] at below
      have same' : (fs.told events).isDirectory child = fs.isDirectory child := rfl
      dsimp only
      rw [same']
      cases kind : fs.isDirectory child with
      | false =>
        rw [below, path_told]
        exact .refused
      | true =>
        rw [if_pos rfl, if_pos rfl, ← path]
        exact ih tree live kind
    | none =>
      dsimp only
      rw [attach_bind, attached_told tree alive directory found rfl]
      have fresh := attached_fresh tree alive directory found
      generalize attached fs id name (.directory []) = middle at fresh ⊢
      generalize events ++ _ = later at fresh ⊢
      have walked := ih fresh.tree fresh.live fresh.kind
      rw [fresh.path] at walked
      obtain ⟨last, after, made, childless⟩ :
          ∃ last after, (middle.told later).makeDirectories fs.nodes.length rest =
            .ok (last, after) ∧
            after.children last = [] :=
        makeDirectories_of_childless rest fresh.kind fresh.childless
      dsimp only
      rw [made] at walked ⊢
      generalize makeDirectories _ _ _ _ middle = outcome at walked ⊢
      cases walked with
      | there => exact .made childless
      | made childless => exact .made childless

theorem makeDirectories_root (tree : Tree fs) (names : List Name) :
    Trodden fs [] (fs.makeDirectories rootId names)
      (makeDirectories rootId .root [] names fs) := by
  have still : fs.told [] = fs := by simp [told]
  have walked := @makeDirectories_trodden fs rootId names [] (still.symm ▸ tree) tree.rootLive
    tree.rootDirectory
  rwa [still, tree.path_root] at walked

theorem createDirectory_eq (tree : Tree fs) (text : String) :
    createDirectory text fs = settle fs (fs.createDirectory text) := by
  refine inspect_bind fun path read => ?_
  have walked := makeDirectories_root tree path.names
  generalize placed : makeDirectories rootId .root [] path.names fs = outcome at walked
  generalize fs.makeDirectories rootId path.names = result at walked ⊢
  cases walked with
  | refused => exact bind_failed placed
  | there => exact bind_done placed
  | made childless => exact bind_done placed

/-- A file is put into the last directory on the way to it. If there is something of its name, then
no directory was made before. -/
theorem attachFile_eq (tree : Tree fs) {middle : FileSystem} {names : List Name}
    {directory : NodeId} {later : List Event}
    (made : fs.makeDirectories rootId names = .ok (directory, middle.told later))
    {path : Path} {name : Name} (spelled : path.names = names ++ [name])
    (undone : middle.child? directory name = none ∨ middle = fs) (content : Bytes) :
    attachFile directory name content path later middle =
      settle fs (match (middle.told later).child? directory name with
        | some _ => throw (.alreadyExists path)
        | none => pure ((middle.told later).insert directory name (.file content))) := by
  have same : (middle.told later).child? directory name = middle.child? directory name := rfl
  rw [attachFile, get_bind, same]
  cases found : middle.child? directory name with
  | some other =>
    rcases undone with absent | rfl
    · rw [found] at absent
      cases absent
    · rfl
  | none =>
    obtain ⟨extended, alive, kind⟩ :=
      Extends.makeDirectories tree tree.rootLive tree.rootDirectory made
    have paves := tree.makeDirectories_paves tree.rootLive tree.rootDirectory made
    have place : (middle.path directory).push name = path := by
      rw [← path_told, paves.path, tree.path_root, Path.push, Path.root, List.nil_append, ← spelled]
    dsimp only
    rw [attach_bind, attached_told extended.tree alive kind found rfl, place]
    rfl

theorem createFile_eq (tree : Tree fs) (text : String) (content : Bytes) :
    createFile text content fs = settle fs (fs.createFile text content) := by
  refine inspect_bind fun path read => ?_
  cases above : path.parent? with
  | none => rfl
  | some parent =>
    cases last : path.name? with
    | none => rfl
    | some name =>
      have spelled := names_of_parent? above last
      have walked := makeDirectories_root tree parent.names
      generalize placed : makeDirectories rootId .root [] parent.names fs = outcome at walked
      generalize whole : fs.makeDirectories rootId parent.names = result at walked
      dsimp only
      rw [whole]
      cases walked with
      | refused => exact bind_failed placed
      | there => exact (bind_done placed).trans (attachFile_eq tree whole spelled
        (.inr rfl) content)
      | made childless =>
        have absent := child?_of_childless childless name
        exact (bind_done placed).trans (attachFile_eq tree whole spelled (.inl absent) content)

end Edit

namespace Session

def within {α : Type} (edit : Edit α) : EStateM Fault Session α := fun session =>
  match edit session.files with
  | .ok value files => .ok value { session with files }
  | .error fault files => .error fault { session with files }

/-- What comes of a change of the files of a session that is made as a whole or not at all. -/
def settle {α : Type} (session : Session) :
    Except Fault (α × FileSystem) → EStateM.Result Fault Session α
  | .ok (value, files) => .ok value { session with files }
  | .error fault => .error fault session

/-- Gives a command, which is carried out in place. A stream is used up before it is closed. -/
def carryOut : Command → EStateM Fault Session Unit
  | .createFile path content => discard (within (Edit.createFile path content))
  | .createDirectory path => discard (within (Edit.createDirectory path))
  | .rename id requestor name => within (Edit.rename id requestor name)
  | .setContent id requestor content announce =>
    within (Edit.setContent id requestor content announce)
  | .setWritable id writable => within (Edit.setWritable id writable)
  | .delete id requestor => within (Edit.delete id requestor)
  | .nextStamp => discard (within Edit.takeStamp)
  | .openStream id requestor stamp => do
    let stream ← within (Edit.inspect (·.openStream id requestor stamp))
    modify fun session => { session with streams := session.streams ++ [some stream] }
  | .write index data =>
    modify fun session =>
      { session with streams := session.streams.modify index (·.map (·.write data)) }
  | .closeStream index => do
    match (← get).stream? index with
    | some stream =>
      modify (·.withoutStream index)
      within (Edit.closeStream stream)
    | none => return
  | .dropStream index => modify (·.withoutStream index)

/-- What comes of a command, the answer left out. -/
def outcome : Except Fault (List NodeId) × Session → EStateM.Result Fault Session Unit
  | (.ok _, after) => .ok () after
  | (.error fault, after) => .error fault after

/-- The session after a command that is carried out in place, if it is refused or not. -/
def advance (session : Session) (command : Command) : Session :=
  match carryOut command session with
  | .ok _ after => after
  | .error _ after => after

variable {session : Session}

theorem within_settle {α : Type} {edit : Edit α} {result : Except Fault (α × FileSystem)}
    (settles : edit session.files = session.files.settle result) :
    within edit session = session.settle result := by
  unfold within
  rw [settles]
  rcases result with fault | ⟨value, files⟩ <;> rfl

theorem discard_settle {α : Type} {edit : Edit α} {result : Except Fault (α × FileSystem)}
    (settles : edit session.files = session.files.settle result) :
    discard (within edit) session = session.settle (((), ·) <$> result.map Prod.snd) := by
  have done := within_settle settles
  rcases result with fault | ⟨value, files⟩
  · exact bind_failed done
  · exact bind_done done

theorem settle_adopt {result : Except Fault FileSystem} {touched : FileSystem → List NodeId} :
    session.settle (((), ·) <$> result) = outcome (session.adopt result touched) := by
  cases result <;> rfl

theorem outcome_eq_error {asked : Except Fault (List NodeId) × Session} {fault : Fault}
    {after : Session} (failed : outcome asked = .error fault after) :
    asked = (.error fault, after) := by
  rcases asked with ⟨answer | answer, now⟩ <;> cases failed
  rfl

/-- Carried out in place, a command does what it does as a whole. -/
theorem carryOut_eq (tree : Tree session.files) (command : Command) :
    carryOut command session = outcome (session.perform command) := by
  cases command with
  | createFile path content =>
    exact (discard_settle (Edit.createFile_eq tree path content)).trans settle_adopt
  | createDirectory path =>
    exact (discard_settle (Edit.createDirectory_eq tree path)).trans settle_adopt
  | rename id requestor name => exact (within_settle Edit.rename_eq).trans settle_adopt
  | setContent id requestor content announce =>
    exact (within_settle Edit.setContent_eq).trans settle_adopt
  | setWritable id writable =>
    rw [carryOut, within, Edit.setWritable_eq]
    rfl
  | delete id requestor => exact (within_settle Edit.delete_eq).trans settle_adopt
  | nextStamp => rfl
  | openStream id requestor stamp =>
    simp only [carryOut, perform]
    cases opened : session.files.openStream id requestor stamp with
    | error fault => exact bind_failed (by simp only [within, Edit.inspect, opened])
    | ok stream => exact bind_done (by simp only [within, Edit.inspect, opened])
  | write index data => rfl
  | closeStream index =>
    simp only [carryOut, perform]
    refine (bind_done rfl).trans ?_
    cases opened : session.stream? index with
    | none => rfl
    | some stream =>
      -- the stream is gone before its file is looked at
      exact (bind_done rfl).trans ((within_settle Edit.closeStream_eq).trans settle_adopt)
  | dropStream index => rfl

theorem adopt_refused {result : Except Fault FileSystem} {touched : FileSystem → List NodeId}
    {fault : Fault} {after : Session}
    (refused : session.adopt result touched = (.error fault, after)) : after = session := by
  cases result <;> cases refused
  rfl

/-- A command that is refused leaves everything as it was, but for the stream that it was to close.
-/
theorem perform_refused {command : Command} {fault : Fault} {after : Session}
    (refused : session.perform command = (.error fault, after)) :
    after = session ∨ ∃ index, command = .closeStream index ∧ after =
      session.withoutStream index := by
  cases command with
  | createFile | createDirectory | rename | setContent | delete =>
    exact .inl (adopt_refused refused)
  | setWritable | nextStamp | write | dropStream => cases refused
  | openStream id requestor stamp =>
    simp only [perform] at refused
    split at refused <;> cases refused
    exact .inl rfl
  | closeStream index =>
    simp only [perform] at refused
    split at refused
    · exact .inr ⟨index, rfl, adopt_refused refused⟩
    · cases refused

/-- A history that is carried out in place leads where it leads as a whole. -/
theorem run_in_place (commands : List Command) :
    commands.foldl advance start = start.run commands := by
  induction commands using List.reverseRecOn with
  | nil => rfl
  | append_singleton commands command ih =>
    rw [List.foldl_concat, run_concat, ih, advance, carryOut_eq (tree_run commands), step]
    rcases (start.run commands).perform command with ⟨answer, after⟩
    cases answer <;> rfl

/-- All changes are made in place, one small change after another, and yet a command that is refused
after some history leaves no trace in the files: all nodes are as they were, no stamp was taken and
nothing was told. The only stream that is lost is one that was to be closed. Apart from that,
commands do in place what they do as a whole. -/
theorem run_refuses (commands : List Command) (command : Command) :
    let session := commands.foldl advance start
    session = start.run commands ∧
    carryOut command session = outcome (session.perform command) ∧
    (∀ fault after, carryOut command session = .error fault after →
      after.files = session.files ∧
      (after = session ∨
        ∃ index, command = .closeStream index ∧ after = session.withoutStream index)) := by
  intro session
  have same : session = start.run commands := run_in_place commands
  have tree : Tree session.files := same ▸ tree_run commands
  refine ⟨same, carryOut_eq tree command, fun fault after failed => ?_⟩
  rw [carryOut_eq tree command] at failed
  have left := perform_refused (outcome_eq_error failed)
  refine ⟨?_, left⟩
  rcases left with rfl | ⟨index, _, rfl⟩ <;> rfl

/-- Nothing can be made below a file. -/
example :
    let session := start.run [.createFile "a" []]
    session.accepts (.createFile "a/b/c" []) = false ∧
      (session.advance (.createFile "a/b/c" [])).files = session.files := by
  decide +kernel

end Session

end Depot.FileSystem

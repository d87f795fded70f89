import Depot.Proofs.FileSystem.Account
import Depot.Proofs.FileSystem.Commits
import Mathlib.Data.List.Induction

set_option autoImplicit false

namespace Depot.FileSystem

variable {before after : FileSystem}

def creation (fs : FileSystem) (id : NodeId) : Event :=
  .created id (fs.path id)

/-- Nodes were created and told in their order, and nothing else was done. -/
structure Creates (before after : FileSystem) : Prop where
  grows : before.nodes.length ≤ after.nodes.length
  place : ∀ id, id < before.nodes.length → after.place? id = before.place? id
  live : ∀ id, id < before.nodes.length → after.isLive id = before.isLive id
  occupant : ∀ id, id < before.nodes.length → after.occupant? id = before.occupant? id
  new : ∀ id ∈ added before after, after.isLive id = true ∧ after.isWritable id = true
  log : after.log = before.log ++ (added before after).map after.creation

namespace Creates

theorem path (creates : Creates before after) {id : NodeId} (inside : id < before.nodes.length) :
    after.path id = before.path id :=
  congrArg Path.mk (names_congr fun other below => creates.place other (by lia))

theorem refl (fs : FileSystem) : Creates fs fs where
  grows := Nat.le_refl _
  place _ _ := rfl
  live _ _ := rfl
  occupant _ _ := rfl
  new id present := by simp [added] at present
  log := by simp [added]

theorem insert (fs : FileSystem) (parent : NodeId) (name : Name) (content : Content) :
    Creates fs (fs.insert parent name content).2 where
  grows := by simp
  place id inside := by rw [place?_insert, if_neg (by lia)]
  live id inside := by rw [isLive_insert, if_neg (by lia)]
  occupant id inside := by rw [occupant?_insert, if_neg (by lia)]
  new id present := by
    have same : id = fs.nodes.length := by
      have bounds := mem_added.mp present
      rw [length_insert] at bounds
      lia
    rw [isLive_insert, isWritable_eq, occupant?_insert, if_pos same, if_pos same]
    exact ⟨rfl, rfl⟩
  log := by
    let told := (fs.insert parent name content).2
    have one : added fs told = [fs.nodes.length] := by simp [told, added]
    -- the path that is told was read before the log had the event
    have path : { told with log := fs.log }.path fs.nodes.length = told.path fs.nodes.length :=
      path_congr fun _ => rfl
    rw [one, List.map_singleton, creation, ← path]
    rfl

theorem trans {middle : FileSystem} (first : Creates before middle)
    (second : Creates middle after) :
    Creates before after where
  grows := Nat.le_trans first.grows second.grows
  place id inside := by
    rw [second.place id (Nat.lt_of_lt_of_le inside first.grows), first.place id inside]
  live id inside := by
    rw [second.live id (Nat.lt_of_lt_of_le inside first.grows), first.live id inside]
  occupant id inside := by
    rw [second.occupant id (Nat.lt_of_lt_of_le inside first.grows), first.occupant id inside]
  new id present := by
    have bounds := mem_added.mp present
    by_cases early : id < middle.nodes.length
    · have shown := first.new id (mem_added.mpr ⟨bounds.1, early⟩)
      rwa [second.live id early, isWritable_congr (second.occupant id early)]
    · exact second.new id (mem_added.mpr ⟨Nat.le_of_not_lt early, bounds.2⟩)
  log := by
    have whole : added before after = added before middle ++ added middle after := by
      have earlier := first.grows
      have later := second.grows
      have steps : after.nodes.length - before.nodes.length =
          (middle.nodes.length - before.nodes.length) +
            (after.nodes.length - middle.nodes.length) := by
        omega
      have reached : before.nodes.length + (middle.nodes.length - before.nodes.length) =
          middle.nodes.length := by omega
      rw [added, added, added, steps, ← List.range'_append_1, reached]
    -- the paths of the nodes that came first are still the same
    have same : (added before middle).map after.creation =
        (added before middle).map middle.creation := by
      refine List.map_congr_left fun id present => ?_
      rw [creation, creation, second.path (mem_added.mp present).2]
    rw [second.log, first.log, whole, List.map_append, same, List.append_assoc]

theorem makeDirectories {names : List Name} {id last : NodeId}
    (made : before.makeDirectories id names = .ok (last, after)) : Creates before after := by
  induction names generalizing before id with
  | nil =>
    cases made
    exact .refl _
  | cons name rest ih =>
    unfold FileSystem.makeDirectories at made
    split at made
    · split at made
      · exact ih made
      · cases made
    · exact (insert before id name (.directory [])).trans (ih made)

theorem createDirectory {text : String} {id : NodeId}
    (made : before.createDirectory text = .ok (id, after)) : Creates before after := by
  obtain ⟨_, _, made⟩ := createDirectory_eq_ok.mp made
  exact makeDirectories made

theorem createFile {text : String} {content : Bytes} {id : NodeId}
    (made : before.createFile text content = .ok (id, after)) :
    Creates before after ∧ before.nodes.length < after.nodes.length := by
  obtain ⟨_, _, name, directory, middle, _, _, placed, _, inserted⟩ := createFile_eq_ok.mp made
  have around := makeDirectories placed
  have grown := insert middle directory name (.file content)
  have more : middle.nodes.length <
      (middle.insert directory name (.file content)).2.nodes.length := by
    simp
  rw [inserted] at grown more
  exact ⟨around.trans grown, Nat.lt_of_le_of_lt around.grows more⟩

theorem narrates (creates : Creates before after) :
    Narrates none before after ((added before after).map after.creation) where
  log := creates.log
  fits event present := by
    obtain ⟨id, new, rfl⟩ := List.mem_map.mp present
    exact ⟨(mem_added.mp new).1, rfl⟩
  replay earlier known := by
    funext id
    unfold creation
    rw [Account.replay_created]
    by_cases new : id ∈ added before after
    · obtain ⟨alive, writable⟩ := creates.new id new
      have unheard : id ∉ earlier := fun heard =>
        Nat.not_lt_of_le (mem_added.mp new).1 (known id heard)
      rw [if_pos new, account_of_live alive]
      simp [sighting, writable, unheard]
    · rw [if_neg new]
      by_cases inside : id < before.nodes.length
      · unfold account
        rw [creates.live id inside, sighting_congr (creates.path inside)
          (creates.occupant id inside) Iff.rfl]
        rfl
      · have beyond : after.nodes.length ≤ id := by
          by_cases known : id < after.nodes.length
          · exact absurd (mem_added.mpr ⟨Nat.le_of_not_lt inside, known⟩) new
          · exact Nat.le_of_not_lt known
        rw [account_of_dead (isLive_eq_false (Nat.le_of_not_lt inside)),
          account_of_dead (isLive_eq_false beyond)]

end Creates

/-- Directories are made exactly if the names do not lead anywhere yet. -/
theorem makeDirectories_grows {names : List Name} {id last : NodeId}
    (made : before.makeDirectories id names = .ok (last, after)) :
    before.nodes.length = after.nodes.length ↔ (before.descend? id names).isSome := by
  induction names generalizing before id with
  | nil =>
    cases made
    simp [descend?]
  | cons name rest ih =>
    unfold makeDirectories at made
    unfold descend?
    split at made
    · next child found =>
      split at made
      · rw [found]
        exact ih made
      · cases made
    · next absent =>
      have more : (before.insert id name (.directory [])).2.nodes.length ≤ after.nodes.length :=
        (Creates.makeDirectories made).grows
      rw [length_insert] at more
      have unequal : before.nodes.length ≠ after.nodes.length := by omega
      simp [absent, unequal]

theorem added_eq_nil (grows : before.nodes.length ≤ after.nodes.length) :
    added before after = [] ↔ before.nodes.length = after.nodes.length := by
  simp only [added, List.range'_eq_nil_iff]
  omega

namespace Session

variable {session : Session}

/-- The stamp that a node has in the first state in which it is there. -/
def birthStamp (session : Session) (id : NodeId) : List Command → Stamp
  | [] => session.files.stamp id
  | command :: rest =>
    if id < session.files.nodes.length then session.files.stamp id
    else (session.step command).birthStamp id rest

/-- A command has nothing to tell: it is refused, or it changes nothing that events tell of. -/
def Quiet (session : Session) (command : Command) : Prop :=
  session.accepts command = false ∨
    match command with
    | .createFile .. | .delete .. => False
    | .createDirectory path => (session.files.findText? path).isSome
    | .rename id _ text => ∃ name, Name.ofString text = .ok name ∧ session.files.name id = .ok name
    | .setContent _ _ _ announce => announce = false
    | .setWritable id writable => session.files.isWritable id = writable
    | .closeStream index => session.stream? index = none
    | .nextStamp | .openStream .. | .write .. | .dropStream _ => True

/-- One step of a history. -/
theorem step_narrates (tree : Tree session.files) (command : Command) :
    ∃ news, Narrates (session.renews command) session.files (session.step command).files news ∧
      (news = [] ↔ session.Quiet command) := by
  have later := (step_continues tree command).tree
  unfold Quiet renews
  rcases session.step_cases command with ⟨refused, same⟩ | ⟨accepted, made⟩
  · rw [same, refused]
    exact ⟨[], .refl, by simp⟩
  rw [if_pos accepted]
  simp only [accepted, Bool.true_eq_false, false_or]
  generalize (session.step command).files = after at made later ⊢
  cases made with
  | createFile made =>
    obtain ⟨creates, more⟩ := Creates.createFile made
    refine ⟨_, creates.narrates, ?_⟩
    rw [List.map_eq_nil_iff, added_eq_nil creates.grows]
    simp only [iff_false]
    omega
  | createDirectory made =>
    have creates := Creates.createDirectory made
    obtain ⟨path, read, made⟩ := createDirectory_eq_ok.mp made
    refine ⟨_, creates.narrates, ?_⟩
    rw [List.map_eq_nil_iff, added_eq_nil creates.grows, makeDirectories_grows made]
    simp only [findText?, read, find?]
  | rename renamed => exact Narrates.rename tree later renamed
  | @setContent id requestor content announce after changed =>
    have narrates := Narrates.setContent changed
    cases announce <;> exact narrates
  | setWritable => exact Narrates.setWritable _ _ _
  | delete deleted => exact ⟨_, .delete tree deleted, by simp⟩
  | nextStamp =>
    exact ⟨[], .silent rfl (fun _ => rfl) (fun _ => path_congr fun _ => rfl)
      (fun _ => rfl) fun _ => rfl, by simp⟩
  | openStream opened => exact ⟨[], .refl, by simp⟩
  | write => exact ⟨[], .refl, by simp⟩
  | closeStream opened closed =>
    obtain ⟨event, narrates⟩ := Narrates.closeStream closed
    simp only [opened, Option.map_some]
    exact ⟨[event], narrates, by simp⟩
  | closeNothing absent =>
    simp only [absent, Option.map_none]
    exact ⟨[], .refl, by simp⟩
  | dropStream => exact ⟨[], .refl, by simp⟩

/-- A file that gets a new stamp is there already. -/
theorem lt_length_of_renews {command : Command} {id : NodeId}
    (renewed : session.renews command = some id) : id < session.files.nodes.length := by
  unfold renews at renewed
  rcases session.step_cases command with ⟨refused, _⟩ | ⟨accepted, made⟩
  · simp [refused] at renewed
  rw [if_pos accepted] at renewed
  generalize (session.step command).files = after at made
  cases made with
  | @setContent id requestor content announce after changed =>
    obtain ⟨_, _, there, _⟩ := setContent_eq_ok.mp changed
    cases announce <;> cases renewed
    exact (List.getElem?_eq_some_iff.mp there).1
  | closeStream opened closed =>
    obtain ⟨_, _, there, _⟩ := closeStream_eq_ok.mp closed
    simp only [opened, Option.map_some] at renewed
    cases renewed
    exact (List.getElem?_eq_some_iff.mp there).1
  | closeNothing absent => simp [absent] at renewed
  | _ => cases renewed

/-- A node has its first stamp as soon as it is there. -/
theorem birthStamp_concat (tree : Tree session.files) (commands : List Command) (command : Command)
    (id : NodeId) :
    session.birthStamp id (commands ++ [command]) =
      if id < (session.run commands).files.nodes.length then session.birthStamp id commands
      else ((session.run commands).step command).files.stamp id := by
  induction commands generalizing session with
  | nil => rfl
  | cons head rest ih =>
    have next := step_continues tree head
    have grown := next.follows.grows
    have more := (run_continues next.tree rest).follows.grows
    have whole : session.run (head :: rest) = (session.step head).run rest := rfl
    simp only [List.cons_append, birthStamp, whole]
    by_cases known : id < session.files.nodes.length
    · have inside : id < ((session.step head).run rest).files.nodes.length := by lia
      simp only [known, inside, if_true]
    · simp only [known, if_false]
      exact ih next.tree

/-- What has been heard after some commands is what there is to tell. By induction on the commands,
from the end. -/
theorem run_account (commands : List Command) :
    let fs := (start.run commands).files
    let renewed := start.gather renews commands
    (∀ id ∈ renewed, id < fs.nodes.length) ∧ Account.start.replay fs.log = fs.account renewed := by
  induction commands using List.reverseRecOn with
  | nil =>
    refine ⟨fun id present => absurd present List.not_mem_nil, ?_⟩
    funext id
    cases id with
    | zero =>
      have alive : FileSystem.empty.isLive rootId = true := rfl
      refine Eq.symm ((account_of_live alive).trans ?_)
      simp only [sighting, Tree.empty.path_root]
      rfl
    | succ id =>
      have beyond : FileSystem.empty.nodes.length ≤ id + 1 := by simp [FileSystem.empty]
      exact (account_of_dead (isLive_eq_false beyond)).symm
  | append_singleton commands command ih =>
    obtain ⟨inside, known⟩ := ih
    have tree : Tree (start.run commands).files := tree_run commands
    have grows := (step_ages tree command).grows
    obtain ⟨news, narrates, _⟩ := step_narrates tree command
    simp only [run_concat, gather_concat]
    refine ⟨fun id present => ?_, ?_⟩
    · rcases List.mem_append.mp present with present | present
      · exact Nat.lt_of_lt_of_le (inside id present) grows
      · exact Nat.lt_of_lt_of_le (lt_length_of_renews (Option.mem_toList.mp present)) grows
    · rw [narrates.log, Account.replay_append, known, narrates.replay _ inside]
      exact account_congr fun id => by simp [or_comm]

/-- A node that got no new stamp still has its first one, and, as long as the counter stays below
the last stamp, the others have greater ones. By induction on the commands, from the end. -/
theorem run_renewed (commands : List Command) (id : NodeId)
    (inside : id < (start.run commands).files.nodes.length) :
    let stamp := (start.run commands).files.stamp id
    (id ∉ start.gather renews commands → stamp = start.birthStamp id commands) ∧
      (start.Below commands → start.birthStamp id commands ≤ stamp ∧
        (id ∈ start.gather renews commands → start.birthStamp id commands < stamp)) := by
  induction commands using List.reverseRecOn with
  | nil => exact ⟨fun _ => rfl, fun _ => ⟨UInt64.le_refl _, fun present => by cases present⟩⟩
  | append_singleton commands command ih =>
    have tree : Tree (start.run commands).files := tree_run commands
    have ages := step_ages tree command
    rw [gather_concat, birthStamp_concat Tree.empty]
    simp only [run_concat, List.mem_append, Option.mem_toList, not_or]
    split
    · next early =>
      obtain ⟨still, dated⟩ := ih early
      refine ⟨fun ⟨absent, other⟩ => (ages.stamp id early other).trans (still absent),
        fun below => ?_⟩
      obtain ⟨before, now⟩ := below_append below
      have raised := ages.renews now.draws (run_timely before) id
      have le := ages.le now.draws (run_timely before) early
      obtain ⟨past, greater⟩ := dated before
      refine ⟨UInt64.le_trans past le, fun present => ?_⟩
      rcases present with present | renewed
      · exact UInt64.lt_of_lt_of_le (greater present) le
      · exact UInt64.lt_of_le_of_lt past (raised renewed)
    · next new =>
      refine ⟨fun _ => rfl, fun _ => ⟨UInt64.le_refl _, fun present => absurd ?_ new⟩⟩
      rcases present with present | renewed
      · exact (run_account commands).1 id present
      · exact lt_length_of_renews renewed

/-- The log reproduces the tree. After every history, who has heard all events knows exactly the
live nodes, each with its path, whether it may be written, and its stamp if it got a new one since
it was created; the others have the stamp that they were created with, and as long as the counter
stays below the last stamp, a new stamp is another one than that. Each command adds its events to
the log: they give the paths and names of their nodes, and a change of a content tells the stamp
just before and the one after. Exactly the commands that are refused or have nothing to tell add
none. -/
theorem run_replays (commands : List Command) (command : Command) :
    let session := start.run commands
    let fs := session.files
    let after := (session.step command).files
    let renewed := start.gather renews commands
    (∀ id, Account.start.replay fs.log id =
      if fs.isLive id then
        some {
          path := fs.path id
          writable := fs.isWritable id
          stamp? := if id ∈ renewed then some (fs.stamp id) else none }
      else none) ∧
    (∀ id, fs.isLive id = true → id ∉ renewed → fs.stamp id = start.birthStamp id commands) ∧
    (start.Below commands → ∀ id ∈ renewed, start.birthStamp id commands < fs.stamp id) ∧
    ∃ news, after.log = fs.log ++ news ∧ (∀ event ∈ news, event.Fits fs after) ∧
      (news = [] ↔ session.Quiet command) := by
  intro session fs after renewed
  obtain ⟨inside, known⟩ := run_account commands
  refine ⟨fun id => congrFun known id, fun id alive absent => ?_, fun below id present => ?_, ?_⟩
  · exact (run_renewed commands id (lt_length_of_isLive alive)).1 absent
  · exact ((run_renewed commands id (inside id present)).2 below).2 present
  obtain ⟨news, narrates, quiet⟩ := step_narrates (tree_run commands) command
  exact ⟨news, narrates.log, narrates.fits, quiet⟩

end Session

end Depot.FileSystem

import Depot.Proofs.FileSystem.Stamps
import Depot.Proofs.FileSystem.Streams

set_option autoImplicit false

namespace Depot.FileSystem

def bytes? (fs : FileSystem) (id : NodeId) : Option Bytes :=
  (fs.file? id).map Prod.fst

/-- The file system in which the content and the stamp of a stream have replaced those of its file.
-/
def commit (fs : FileSystem) (stream : Stream) : FileSystem :=
  { fs.update stream.node fun node =>
      { node with content := .file stream.buffer, stamp := stream.stamp } with
    lastStamp := max fs.lastStamp stream.stamp
    log := fs.log ++ [.contentChanged stream.requestor stream.node (fs.path stream.node)
      (fs.stamp stream.node) stream.stamp] }

variable {fs before after : FileSystem} {id : NodeId}

theorem closeStream_eq_commit {stream : Stream} (closed : fs.closeStream stream = .ok after) :
    after = fs.commit stream := by
  obtain ⟨node, _, there, _, _, _, _, rfl⟩ := closeStream_eq_ok.mp closed
  rw [commit, stamp_of_node? there]

/-- A stream on a file can be closed exactly if the file is live and may be written and its stamp is
older. -/
theorem closeStream_isOk {stream : Stream} (inside : stream.node < fs.nodes.length)
    (plain : fs.isDirectory stream.node = false) :
    (∃ after, fs.closeStream stream = .ok after) ↔
      fs.isLive stream.node = true ∧ fs.isWritable stream.node = true ∧
        fs.stamp stream.node < stream.stamp := by
  obtain ⟨node, there⟩ : ∃ node, fs.node? stream.node = some node :=
    ⟨_, List.getElem?_eq_getElem inside⟩
  obtain ⟨bytes, content⟩ : ∃ bytes, node.content = .file bytes := by
    cases content : node.content with
    | file bytes => exact ⟨bytes, rfl⟩
    | directory children => simp [isDirectory, there, content] at plain
  simp only [closeStream_eq_ok, isLive, isWritable, there, Option.any_some, stamp_of_node? there]
  constructor
  · rintro ⟨_, _, _, found, alive, flag, newer, _⟩
    cases found
    exact ⟨alive, flag, newer⟩
  · rintro ⟨alive, flag, newer⟩
    exact ⟨_, node, bytes, rfl, alive, flag, newer, content, rfl⟩

theorem bytes?_congr (same : after.file? id = before.file? id) :
    after.bytes? id = before.bytes? id := by
  rw [bytes?, same, ← bytes?]

theorem bytes?_eq_none (beyond : fs.nodes.length ≤ id) : fs.bytes? id = none := by
  simp [bytes?, file?, node?_eq_none beyond]

/-- What a change that is seen in one file does to bytes. -/
theorem bytes?_revised {change : Occupant → Occupant} {node : Node} {content : Bytes}
    (revised : ∀ other, after.occupant? other = (before.occupant? other).map (·.revise id change))
    (there : before.node? id = some node)
    (supplied : (change (node.occupant id)).bytes? = some content) (other : NodeId) :
    after.bytes? other = ([(id, content)].lookup other).or (before.bytes? other) := by
  by_cases same : other = id
  · subst same
    rw [bytes?, file?_eq, occupant?_revised revised there]
    simp [supplied]
  · rw [bytes?_congr (file?_congr (occupant?_revised_of_ne revised same))]
    simp [List.lookup_cons, beq_eq_false_iff_ne.mpr same]

theorem Gains.bytes? {contents : List (Option Bytes)} (gains : Gains contents before after)
    (id : NodeId) : after.bytes? id =
      if id < before.nodes.length then before.bytes? id
      else contents[id - before.nodes.length]?.join := by
  split
  · next inside => exact bytes?_congr (file?_congr (gains.old id inside))
  · next beyond =>
    obtain ⟨index, rfl⟩ := Nat.exists_eq_add_of_le (Nat.le_of_not_lt beyond)
    rw [FileSystem.bytes?, file?_eq, gains.new, Nat.add_sub_cancel_left]
    cases contents[index]? with
    | none => rfl
    | some bytes? => cases bytes? <;> rfl

/-- Directories have no bytes. -/
theorem bytes?_createDirectory {text : String} (made : fs.createDirectory text = .ok (id, after))
    (other : NodeId) : after.bytes? other = fs.bytes? other := by
  obtain ⟨count, gains⟩ := Gains.createDirectory made
  rw [gains.bytes?]
  split
  · rfl
  · next beyond =>
    rw [bytes?_eq_none (Nat.le_of_not_lt beyond), List.getElem?_replicate]
    split <;> rfl

theorem bytes?_createFile {text : String} {content : Bytes}
    (made : fs.createFile text content = .ok (id, after)) (other : NodeId) :
    after.bytes? other = ([(id, content)].lookup other).or (fs.bytes? other) := by
  obtain ⟨count, number, gains⟩ := Gains.createFile made
  rw [gains.bytes?]
  by_cases same : other = id
  · rw [same, number, if_neg (by lia), Nat.add_sub_cancel_left]
    simp
  · have elsewhere : [(id, content)].lookup other = none := by
      simp [List.lookup_cons, beq_eq_false_iff_ne.mpr same]
    rw [elsewhere, Option.none_or]
    split
    · rfl
    · next beyond =>
      -- one of the directories around the file, or nothing at all
      rw [bytes?_eq_none (Nat.le_of_not_lt beyond)]
      have apart : other - fs.nodes.length ≠ count := by lia
      grind

namespace Session

variable {session : Session} {index : Nat} {stream : Stream}

theorem files_closeStream (opened : session.stream? index = some stream) :
    (session.step (.closeStream index)).files =
      if session.accepts (.closeStream index) then session.files.commit
        stream else session.files := by
  rcases session.step_cases (.closeStream index) with ⟨refused, same⟩ | ⟨accepted, _⟩
  · rw [same, refused]
    rfl
  · obtain ⟨after, closed⟩ := (accepts_closeStream opened).mp accepted
    rw [if_pos accepted, step_closeStream opened closed, ← closeStream_eq_commit closed]

def gather {α : Type} (adds : Session → Command → Option α) (session : Session) :
    List Command → List α
  | [] => []
  | command :: rest => (adds session command).toList ++ gather adds (session.step command) rest

theorem gather_concat {α : Type} (adds : Session → Command → Option α) (session : Session)
    (commands : List Command) (command : Command) :
    session.gather adds (commands ++ [command]) =
      session.gather adds commands ++ (adds (session.run commands) command).toList := by
  induction commands generalizing session with
  | nil => simp [gather, run]
  | cons first rest ih => simp [gather, ih, run]

def commits (session : Session) (command : Command) : Option Stream :=
  if session.accepts command then
    match command with
    | .closeStream index => session.stream? index
    | _ => none
  else none

def supplies (session : Session) (command : Command) : Option (NodeId × Bytes) :=
  if session.accepts command then
    match command with
    | .createFile path content =>
      (session.files.createFile path content).toOption.map fun made => (made.1, content)
    | .setContent id _ content _ => some (id, content)
    | .closeStream index =>
      (session.stream? index).map fun stream => (stream.node, stream.buffer)
    | _ => none
  else none

theorem commits_eq_some {command : Command} (closed : session.commits command = some stream) :
    session.files.closeStream stream = .ok (session.step command).files := by
  unfold commits at closed
  split at closed
  · next accepted =>
    split at closed
    · next index =>
      obtain ⟨after, done⟩ := (accepts_closeStream closed).mp accepted
      rw [step_closeStream closed done, done]
    · cases closed
  · cases closed

/-- A stream that is closed later on has a newer stamp than its file has now. -/
theorem lt_of_mem_commits (tree : Tree session.files) (timely : Timely session.files)
    {commands : List Command} (below : session.Below commands)
    (closed : stream ∈ session.gather commits commands) :
    session.files.stamp stream.node < stream.stamp := by
  induction commands generalizing session with
  | nil => cases closed
  | cons command rest ih =>
    rcases List.mem_append.mp closed with closed | closed
    · obtain ⟨node, _, there, _, _, newer, _⟩ :=
        closeStream_eq_ok.mp (commits_eq_some (Option.mem_toList.mp closed))
      rwa [stamp_of_node? there]
    · have ages := step_ages tree command
      have still := ages.timely below.draws timely
      have newer := ih (step_continues tree command).tree still below.2 closed
      by_cases inside : stream.node < session.files.nodes.length
      · exact UInt64.lt_of_le_of_lt (ages.le below.draws timely inside) newer
      · rw [stamp_eq_zero (Nat.le_of_not_lt inside)]
        exact UInt64.lt_of_le_of_lt UInt64.zero_le newer

/-- The streams that are closed on one file have ascending stamps, by induction on the commands. -/
theorem commits_ascending (tree : Tree session.files) (timely : Timely session.files)
    {commands : List Command} (below : session.Below commands) :
    (session.gather commits commands).Pairwise fun earlier later =>
      earlier.node = later.node → earlier.stamp < later.stamp := by
  induction commands generalizing session with
  | nil => exact .nil
  | cons command rest ih =>
    have later := (step_continues tree command).tree
    have still := (step_ages tree command).timely below.draws timely
    refine List.pairwise_append.mpr
      ⟨?_, ih later still below.2, fun first closed second follows same => ?_⟩
    · cases session.commits command with
      | none => exact .nil
      | some stream => exact List.pairwise_singleton _ _
    · have done := commits_eq_some (Option.mem_toList.mp closed)
      have newer := lt_of_mem_commits later still below.2 follows
      obtain ⟨node, _, there, _⟩ := closeStream_eq_ok.mp done
      have now : (session.step command).files.stamp first.node = first.stamp := by
        rw [stamp_eq, occupant?_revised (occupant?_closeStream done) there]
        rfl
      rwa [← same, now] at newer

/-- A command replaces the bytes of the file that it supplies, all at once, and no others. -/
theorem bytes?_step (session : Session) (command : Command) (id : NodeId) :
    (session.step command).files.bytes? id =
      ((session.supplies command).toList.lookup id).or (session.files.bytes? id) := by
  rcases session.step_cases command with ⟨refused, same⟩ | ⟨accepted, made⟩
  · have nothing : session.supplies command = none := if_neg (by simp [refused])
    rw [same, nothing]
    rfl
  · unfold supplies
    rw [if_pos accepted]
    generalize (session.step command).files = after at made ⊢
    cases made with
    | createFile made =>
      simp only [made]
      exact bytes?_createFile made id
    | createDirectory made => exact bytes?_createDirectory made id
    | rename renamed => exact bytes?_congr (file?_congr (occupant?_rename renamed id))
    | setContent changed =>
      obtain ⟨node, _, there, _⟩ := setContent_eq_ok.mp changed
      exact bytes?_revised (occupant?_setContent changed) there rfl id
    | setWritable => exact bytes?_congr (setWritable_alike.2 id)
    | delete deleted => exact bytes?_congr (file?_congr (occupant?_delete deleted id))
    | nextStamp => rfl
    | openStream opened => rfl
    | write => rfl
    | closeStream opened closed =>
      obtain ⟨node, _, there, _⟩ := closeStream_eq_ok.mp closed
      simp only [opened]
      exact bytes?_revised (occupant?_closeStream closed) there rfl id
    | closeNothing absent =>
      simp only [absent]
      rfl
    | dropStream => rfl

/-- After some commands, a file has the bytes that it was given last, by induction on the commands
from the last one. -/
theorem bytes?_run (commands : List Command) (id : NodeId) :
    (start.run commands).files.bytes? id = (start.gather supplies commands).reverse.lookup id := by
  induction commands using List.reverseRecOn with
  | nil => cases id <;> rfl
  | append_singleton commands command ih =>
    have alone : ∀ supplied : Option (NodeId × Bytes),
        supplied.toList.reverse = supplied.toList := by
      rintro (_ | _) <;> rfl
    rw [run_concat, bytes?_step, ih, gather_concat, List.reverse_append,
      List.lookup_append, alone]

/-- Whatever goes on between the opening and the closing of streams: a stream that is open has what
was written to it and nothing else; before it is closed, nothing is seen of it; closing it succeeds
exactly if its file is live and may be written and has an older stamp, and then bytes and stamp
change together with one event; the streams that are closed on one file have ascending stamps, as
long as the counter stays below the last one; and a file has the bytes that it was given last, by
its creation, by a replacement of its content, or by one stream. -/
theorem run_commits (commands : List Command) :
    let session := start.run commands
    let fs := session.files
    (∀ index stream, session.stream? index = some stream ↔ Holds commands index stream) ∧
    (∀ id requestor stamp, (session.step (.openStream id requestor stamp)).files = fs) ∧
    (∀ index data, (session.step (.write index data)).files = fs) ∧
    (∀ index, (session.step (.dropStream index)).files = fs) ∧
    (∀ index stream, session.stream? index = some stream →
      (session.accepts (.closeStream index) = true ↔
        fs.isLive stream.node = true ∧ fs.isWritable stream.node = true ∧
          fs.stamp stream.node < stream.stamp) ∧
      (session.step (.closeStream index)).files =
        if session.accepts (.closeStream index) then fs.commit stream else fs) ∧
    (start.Below commands → (start.gather commits commands).Pairwise fun earlier later =>
      earlier.node = later.node → earlier.stamp < later.stamp) ∧
    (∀ id, fs.bytes? id = (start.gather supplies commands).reverse.lookup id) := by
  intro session fs
  refine ⟨fun index stream => stream?_eq_some, fun id requestor stamp => ?_, fun index data => rfl,
    fun index => rfl, fun index stream opened => ⟨?_, ?_⟩,
    commits_ascending Tree.empty Timely.empty, bytes?_run commands⟩
  · exact files_openStream ..
  · obtain ⟨inside, plain⟩ := (stream?_eq_some.mp opened).plain
    exact (accepts_closeStream opened).trans (closeStream_isOk inside plain)
  · exact files_closeStream opened

/-- Two streams are open on a file, and a third one is too late. -/
def competing : List Command :=
  [.createFile "a" [1], .openStream 1 "s" 5, .openStream 1 "t" 9, .openStream 1 "u" 7, .write 1 [3],
    .write 0 [2], .closeStream 0, .closeStream 1, .closeStream 2]

theorem run_commits_competing :
    start.Below competing ∧
      (start.gather commits competing).map Stream.stamp = [5, 9] ∧
      (start.gather commits competing).Pairwise (fun earlier later =>
        earlier.node = later.node → earlier.stamp < later.stamp) ∧
      (start.run competing).files.bytes? 1 = some [3] := by
  have below : start.Below competing := by decide +kernel
  obtain ⟨_, _, _, _, _, ascending, last⟩ := run_commits competing
  exact ⟨below, by decide +kernel, ascending below, (last 1).trans (by decide +kernel)⟩

/-- A file that has the last stamp of all gets stamp 0 next, and then takes any stamp. -/
theorem commits_not_ascending :
    let commands := exhausting ++ [.setContent 1 "t" [2] true, .openStream 1 "t" 5, .closeStream 1]
    (start.gather commits commands).map (fun stream => (stream.node, stream.stamp)) =
        [(1, 18446744073709551615), (1, 5)] ∧
      (start.run commands).files.stamp 1 = 5 := by
  decide +kernel

end Session

end Depot.FileSystem

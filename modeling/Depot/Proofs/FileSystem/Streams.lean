import Depot.Proofs.FileSystem.History
import Mathlib.Data.List.Induction

set_option autoImplicit false

namespace Depot.FileSystem

/-- Whether a command closes or drops the stream of the given number. -/
def Command.ends (index : Nat) : Command → Bool
  | closeStream other | dropStream other => other = index
  | _ => false

def Command.data (index : Nat) : Command → Bytes
  | write other data => if other = index then data else []
  | _ => []

/-- What some commands write to the stream of the given number, all in all. -/
def written (index : Nat) (commands : List Command) : Bytes :=
  commands.flatMap (·.data index)

@[simp]
theorem Stream.write_nil (stream : Stream) : stream.write [] = stream := by
  simp [Stream.write]

/-- A stream can be opened exactly on a live file that may be written. -/
theorem openStream_eq_ok {fs : FileSystem} {id : NodeId} {requestor : String} {stamp : Stamp}
    {stream : Stream} :
    fs.openStream id requestor stamp = .ok stream ↔
      ∃ node bytes, fs.node? id = some node ∧ node.live = true ∧ node.content = .file bytes ∧
        node.writable = true ∧ stream = ⟨id, requestor, stamp, []⟩ := by
  unfold openStream
  constructor
  · intro opened
    obtain ⟨node, found, opened⟩ := bind_ok_iff.mp opened
    obtain ⟨there, alive⟩ := liveNode_eq_ok.mp found
    cases plain : node.content with
    | directory children =>
      simp only [plain] at opened
      cases opened
    | file bytes =>
      cases flag : node.writable with
      | false =>
        simp only [plain, flag] at opened
        cases opened
      | true =>
        simp only [plain, flag] at opened
        cases opened
        exact ⟨node, bytes, there, alive, plain, flag, rfl⟩
  · rintro ⟨node, bytes, there, alive, plain, flag, rfl⟩
    refine bind_ok_iff.mpr ⟨node, liveNode_eq_ok.mpr ⟨there, alive⟩, ?_⟩
    simp only [plain, flag]
    rfl

namespace Session

variable {session : Session} {index : Nat} {stream : Stream}

def opening (session : Session) : Command → Option Stream
  | .openStream id requestor stamp => (session.files.openStream id requestor stamp).toOption
  | _ => none

/-- A stream is open after some commands: one of them opened it under its number, none has ended it
since, and its buffer is what was written to it since, in order. -/
def Holds (commands : List Command) (index : Nat) (stream : Stream) : Prop :=
  ∃ first second,
    commands = first ++ .openStream stream.node stream.requestor stream.stamp :: second ∧
    (start.run first).accepts (.openStream stream.node stream.requestor stream.stamp) = true ∧
    (start.run first).streams.length = index ∧
    (∀ command ∈ second, command.ends index = false) ∧
    stream.buffer = written index second

theorem lt_length_of_stream? (opened : session.stream? index = some stream) :
    index < session.streams.length := by
  obtain ⟨present, _⟩ := List.getElem?_eq_some_iff.mp (Option.join_eq_some_iff.mp opened)
  exact present

theorem streams_adopt {result : Except Fault FileSystem} {touched : FileSystem → List NodeId} :
    (session.adopt result touched).2.streams = session.streams := by
  cases result <;> rfl

theorem stream?_withoutStream (session : Session) (other index : Nat) :
    (session.withoutStream other).stream? index =
      if other = index then none else session.stream? index := by
  simp only [withoutStream, stream?, List.getElem?_set]
  by_cases same : other = index
  · subst same
    by_cases inside : other < session.streams.length <;> simp [inside]
  · simp [same]

theorem stream?_closeStream (session : Session) (other index : Nat) :
    (session.step (.closeStream other)).stream? index =
      if other = index then none else session.stream? index := by
  cases opened : session.stream? other with
  | none =>
    simp only [step, perform, opened]
    by_cases same : other = index
    · subst same
      simp [opened]
    · simp [same]
  | some stream =>
    rw [← stream?_withoutStream, step, perform, opened]
    dsimp only
    rw [stream?, streams_adopt, ← stream?]

/-- What a command does to the stream of a number. -/
theorem stream?_step (session : Session) (command : Command) (index : Nat) :
    (session.step command).stream? index =
      if command.ends index then none
      else if session.streams.length = index then session.opening command
      else (session.stream? index).map (·.write (command.data index)) := by
  have beyond : session.streams.length = index → session.stream? index = none := by
    rintro rfl
    simp [stream?]
  -- most commands open no stream, and then there is nothing special about the next number
  have unopened : session.opening command = none →
      (if session.streams.length = index then session.opening command
        else (session.stream? index).map (·.write (command.data index))) =
      (session.stream? index).map (·.write (command.data index)) := by
    intro nothing
    by_cases last : session.streams.length = index
    · simp [last, nothing, beyond last]
    · simp [last]
  cases command with
  | createFile | createDirectory | rename | setContent | delete =>
    rw [unopened rfl, step, perform, stream?, streams_adopt, ← stream?]
    simp [Command.ends, Command.data]
  | setWritable | nextStamp =>
    rw [unopened rfl]
    simp [Command.ends, Command.data, step, perform, stream?]
  | openStream id requestor stamp =>
    cases opened : session.files.openStream id requestor stamp with
    | error fault =>
      rw [unopened (by rw [opening, opened]; rfl)]
      simp [Command.ends, Command.data, step, perform, opened]
    | ok stream =>
      have now : (session.step (.openStream id requestor stamp)).streams =
          session.streams ++ [some stream] := by
        simp only [step, perform, opened]
      rw [stream?, now, opening, opened]
      by_cases last : session.streams.length = index
      · subst last
        simp [Command.ends, Except.toOption]
      · have same : (session.streams ++ [some stream])[index]? = session.streams[index]? := by
          rcases Nat.lt_or_gt_of_ne last with less | more
          · rw [List.getElem?_eq_none (by simp; omega), List.getElem?_eq_none (by omega)]
          · exact List.getElem?_append_left more
        rw [same, ← stream?]
        simp [last, Command.ends, Command.data]
  | write other data =>
    rw [unopened rfl, step, perform, stream?, List.getElem?_modify, stream?]
    cases session.streams[index]? with
    | none => simp [Command.ends]
    | some held => by_cases same : other = index <;> simp [same, Command.ends, Command.data]
  | closeStream other =>
    rw [unopened rfl, stream?_closeStream]
    simp [Command.ends, Command.data]
  | dropStream other =>
    rw [unopened rfl, step, perform, stream?_withoutStream]
    simp [Command.ends, Command.data]

/-- A stream that nothing ends collects what is written to it, by induction on the commands. -/
theorem stream?_run {commands : List Command} (opened : session.stream? index = some stream)
    (lasts : ∀ command ∈ commands, command.ends index = false) :
    (session.run commands).stream? index =
      some { stream with buffer := stream.buffer ++ written index commands } := by
  induction commands generalizing session stream with
  | nil => simpa [run, written] using opened
  | cons command rest ih =>
    have inside := lt_length_of_stream? opened
    have now : (session.step command).stream? index = some (stream.write (command.data index)) := by
      rw [stream?_step, lasts command List.mem_cons_self, opened]
      simp [Nat.ne_of_gt inside]
    have later := ih now fun other present => lasts other (List.mem_cons_of_mem _ present)
    simpa [run, written, Stream.write] using later

theorem accepts_openStream {id : NodeId} {requestor : String} {stamp : Stamp} :
    session.accepts (.openStream id requestor stamp) = true ↔
      session.files.openStream id requestor stamp = .ok ⟨id, requestor, stamp, []⟩ := by
  cases opened : session.files.openStream id requestor stamp with
  | error fault => simp [accepts, perform, opened, Except.isOk, Except.toBool]
  | ok stream =>
    obtain ⟨_, _, _, _, _, _, rfl⟩ := openStream_eq_ok.mp opened
    simp [accepts, perform, opened, Except.isOk, Except.toBool]

theorem opening_eq_some {command : Command} (opened : session.opening command = some stream) :
    command = .openStream stream.node stream.requestor stream.stamp ∧
      session.accepts command = true ∧ stream.buffer = [] := by
  unfold opening at opened
  split at opened
  · next id requestor stamp =>
    cases asked : session.files.openStream id requestor stamp with
    | error fault =>
      rw [asked] at opened
      cases opened
    | ok fresh =>
      rw [asked] at opened
      cases opened
      obtain ⟨_, _, _, _, _, _, rfl⟩ := openStream_eq_ok.mp asked
      exact ⟨rfl, accepts_openStream.mpr asked, rfl⟩
  · cases opened

/-- What a history holds open is what it has opened and not ended, by induction on the commands from
the last one. -/
theorem stream?_eq_some {commands : List Command} :
    (start.run commands).stream? index = some stream ↔ Holds commands index stream := by
  constructor
  · induction commands using List.reverseRecOn generalizing stream with
    | nil =>
      intro opened
      cases opened
    | append_singleton commands command ih =>
      intro opened
      rw [run_concat, stream?_step] at opened
      split at opened
      · cases opened
      · next lasts =>
        split at opened
        · next last =>
          obtain ⟨rfl, accepted, empty⟩ := opening_eq_some opened
          exact ⟨commands, [], rfl, accepted, last, by simp, empty⟩
        · obtain ⟨former, held, rfl⟩ := Option.map_eq_some_iff.mp opened
          obtain ⟨first, second, rfl, accepted, last, kept, collected⟩ := ih held
          refine ⟨first, second ++ [command], by simp [Stream.write], accepted, last, ?_, ?_⟩
          · intro other present
            rcases List.mem_append.mp present with present | present
            · exact kept other present
            · rw [List.mem_singleton.mp present]
              simpa using lasts
          · simp [Stream.write, written, collected]
  · rintro ⟨first, second, rfl, accepted, last, kept, collected⟩
    have opened : ((start.run first).step
        (.openStream stream.node stream.requestor stream.stamp)).stream? index =
          some ⟨stream.node, stream.requestor, stream.stamp, []⟩ := by
      rw [stream?_step, if_pos last, opening, accepts_openStream.mp accepted]
      rfl
    rw [run_append, run, List.foldl_cons, ← run, stream?_run opened kept,
      List.nil_append, ← collected]

/-- An open stream is one on a file, even if the file was deleted since. -/
theorem Holds.plain {commands : List Command} (holds : Holds commands index stream) :
    stream.node < (start.run commands).files.nodes.length ∧
      (start.run commands).files.isDirectory stream.node = false := by
  obtain ⟨first, second, rfl, accepted, _⟩ := holds
  obtain ⟨node, bytes, there, _, content, _⟩ :=
    openStream_eq_ok.mp (accepts_openStream.mp accepted)
  have inside : stream.node < (start.run first).files.nodes.length :=
    (List.getElem?_eq_some_iff.mp there).1
  have plain : (start.run first).files.isDirectory stream.node = false := by
    simp [isDirectory, there, content]
  have follows := (run_continues (tree_run first)
    (.openStream stream.node stream.requestor stream.stamp :: second)).follows
  rw [run_append]
  exact ⟨Nat.lt_of_lt_of_le inside follows.grows, (follows.kind _ inside).trans plain⟩

theorem files_openStream (session : Session) (id : NodeId) (requestor : String) (stamp : Stamp) :
    (session.step (.openStream id requestor stamp)).files = session.files := by
  rcases session.step_cases (.openStream id requestor stamp) with ⟨_, same⟩ | ⟨_, made⟩
  · exact same
  · generalize (session.step (.openStream id requestor stamp)).files = after at made ⊢
    cases made
    rfl

end Session

end Depot.FileSystem

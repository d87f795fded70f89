import Depot.FileSystem.Stream
import Depot.Proofs.FileSystem.Tree

set_option autoImplicit false

namespace Depot.FileSystem

/-- What can be asked for. Streams are numbered in the order in which they are opened. -/
inductive Command where
  | createFile (path : String) (content : Bytes)
  | createDirectory (path : String)
  | rename (id : NodeId) (requestor : String) (name : String)
  | setContent (id : NodeId) (requestor : String) (content : Bytes) (announce : Bool)
  | setWritable (id : NodeId) (writable : Bool)
  | delete (id : NodeId) (requestor : String)
  | nextStamp
  | openStream (id : NodeId) (requestor : String) (stamp : Stamp)
  | write (stream : Nat) (data : Bytes)
  | closeStream (stream : Nat)
  | dropStream (stream : Nat)

/-- A file system and its streams, without those that were closed or dropped. -/
structure Session where
  files : FileSystem
  streams : List (Option Stream)

namespace Session

/-- A new file system without streams. -/
def start : Session := ⟨.empty, []⟩

/-- The stream of the given number, if it is open. -/
def stream? (session : Session) (index : Nat) : Option Stream :=
  session.streams[index]?.join

def withoutStream (session : Session) (index : Nat) : Session :=
  { session with streams := session.streams.set index none }

/-- Takes over the result of a change, which is refused or gives a file system in which the given
nodes are touched. -/
def adopt (session : Session) (result : Except Fault FileSystem)
    (touched : FileSystem → List NodeId) : Except Fault (List NodeId) × Session :=
  match result with
  | .ok files => (.ok (touched files), { session with files })
  | .error fault => (.error fault, session)

/-- Gives a command. The answer tells which nodes were created, deleted or renamed or had their
contents replaced; of what is deleted with a directory, only the directory is told. -/
def perform (session : Session) : Command → Except Fault (List NodeId) × Session
  | .createFile path content =>
    session.adopt ((session.files.createFile path content).map Prod.snd) (added session.files)
  | .createDirectory path =>
    session.adopt ((session.files.createDirectory path).map Prod.snd) (added session.files)
  | .rename id requestor name =>
    session.adopt (session.files.rename id requestor name) fun after =>
      if after.place? id = session.files.place? id then [] else [id]
  | .setContent id requestor content announce =>
    session.adopt (session.files.setContent id requestor content announce) fun _ => [id]
  | .setWritable id writable =>
    (.ok [], { session with files := session.files.setWritable id writable })
  | .delete id requestor =>
    session.adopt (session.files.delete id requestor) fun _ => [id]
  | .nextStamp => (.ok [], { session with files := session.files.nextStamp.2 })
  | .openStream id requestor stamp =>
    match session.files.openStream id requestor stamp with
    | .ok stream => (.ok [], { session with streams := session.streams ++ [some stream] })
    | .error fault => (.error fault, session)
  | .write index data =>
    (.ok [], { session with streams := session.streams.modify index (·.map (·.write data)) })
  | .closeStream index =>
    match session.stream? index with
    | some stream =>
      (session.withoutStream index).adopt (session.files.closeStream stream) fun _ => [stream.node]
    | none => (.ok [], session)
  | .dropStream index => (.ok [], session.withoutStream index)

def step (session : Session) (command : Command) : Session :=
  (session.perform command).2

def accepts (session : Session) (command : Command) : Bool :=
  (session.perform command).1.isOk

/-- The nodes that a command touches; one that is refused touches none. -/
def touches (session : Session) (command : Command) : List NodeId :=
  match (session.perform command).1 with
  | .ok touched => touched
  | .error _ => []

def run (session : Session) (commands : List Command) : Session :=
  commands.foldl step session

def touched (session : Session) : List Command → List NodeId
  | [] => []
  | command :: rest => session.touches command ++ (session.step command).touched rest

/-- What a command that is not refused makes of the file system. -/
inductive Makes (session : Session) : Command → FileSystem → Prop where
  | createFile {path : String} {content : Bytes} {id : NodeId} {after : FileSystem}
    (made : session.files.createFile path content = .ok (id, after)) :
    Makes session (.createFile path content) after
  | createDirectory {path : String} {id : NodeId} {after : FileSystem}
    (made : session.files.createDirectory path = .ok (id, after)) :
    Makes session (.createDirectory path) after
  | rename {id : NodeId} {requestor name : String} {after : FileSystem}
    (renamed : session.files.rename id requestor name = .ok after) :
    Makes session (.rename id requestor name) after
  | setContent {id : NodeId} {requestor : String} {content : Bytes} {announce : Bool}
    {after : FileSystem}
    (changed : session.files.setContent id requestor content announce = .ok after) :
    Makes session (.setContent id requestor content announce) after
  | setWritable {id : NodeId} {writable : Bool} :
    Makes session (.setWritable id writable) (session.files.setWritable id writable)
  | delete {id : NodeId} {requestor : String} {after : FileSystem}
    (deleted : session.files.delete id requestor = .ok after) :
    Makes session (.delete id requestor) after
  | nextStamp : Makes session .nextStamp session.files.nextStamp.2
  | openStream {id : NodeId} {requestor : String} {stamp : Stamp} {stream : Stream}
    (opened : session.files.openStream id requestor stamp = .ok stream) :
    Makes session (.openStream id requestor stamp) session.files
  | write {index : Nat} {data : Bytes} : Makes session (.write index data) session.files
  | closeStream {index : Nat} {stream : Stream} {after : FileSystem}
    (opened : session.stream? index = some stream)
    (closed : session.files.closeStream stream = .ok after) :
    Makes session (.closeStream index) after
  | closeNothing {index : Nat} (absent : session.stream? index = none) :
    Makes session (.closeStream index) session.files
  | dropStream {index : Nat} : Makes session (.dropStream index) session.files

/-- A command is refused and leaves the file system alone, or it does what it is to do. -/
theorem step_cases (session : Session) (command : Command) :
    session.accepts command = false ∧ (session.step command).files = session.files ∨
      session.accepts command = true ∧ session.Makes command (session.step command).files := by
  unfold accepts step
  cases command with
  | createFile path content =>
    simp only [perform]
    cases made : session.files.createFile path content with
    | error fault => exact .inl ⟨rfl, rfl⟩
    | ok result => exact .inr ⟨rfl, .createFile made⟩
  | createDirectory path =>
    simp only [perform]
    cases made : session.files.createDirectory path with
    | error fault => exact .inl ⟨rfl, rfl⟩
    | ok result => exact .inr ⟨rfl, .createDirectory made⟩
  | rename id requestor name =>
    simp only [perform]
    cases renamed : session.files.rename id requestor name with
    | error fault => exact .inl ⟨rfl, rfl⟩
    | ok after => exact .inr ⟨rfl, .rename renamed⟩
  | setContent id requestor content announce =>
    simp only [perform]
    cases changed : session.files.setContent id requestor content announce with
    | error fault => exact .inl ⟨rfl, rfl⟩
    | ok after => exact .inr ⟨rfl, .setContent changed⟩
  | setWritable id writable => exact .inr ⟨rfl, .setWritable⟩
  | delete id requestor =>
    simp only [perform]
    cases deleted : session.files.delete id requestor with
    | error fault => exact .inl ⟨rfl, rfl⟩
    | ok after => exact .inr ⟨rfl, .delete deleted⟩
  | nextStamp => exact .inr ⟨rfl, .nextStamp⟩
  | openStream id requestor stamp =>
    simp only [perform]
    cases opened : session.files.openStream id requestor stamp with
    | error fault => exact .inl ⟨rfl, rfl⟩
    | ok stream => exact .inr ⟨rfl, .openStream opened⟩
  | write index data => exact .inr ⟨rfl, .write⟩
  | closeStream index =>
    simp only [perform]
    cases found : session.stream? index with
    | none => exact .inr ⟨rfl, .closeNothing found⟩
    | some stream =>
      dsimp only
      cases closed : session.files.closeStream stream with
      | error fault => exact .inl ⟨rfl, rfl⟩
      | ok after => exact .inr ⟨rfl, .closeStream found closed⟩
  | dropStream index => exact .inr ⟨rfl, .dropStream⟩

section Close

variable {session : Session} {index : Nat} {stream : Stream}

theorem accepts_closeStream (opened : session.stream? index = some stream) :
    session.accepts (.closeStream index) = true ↔
      ∃ after, session.files.closeStream stream = .ok after := by
  unfold accepts perform
  simp only [opened]
  cases session.files.closeStream stream with
  | error fault => simp [adopt, Except.isOk, Except.toBool]
  | ok after => simp [adopt, Except.isOk, Except.toBool]

theorem step_closeStream (opened : session.stream? index = some stream) {after : FileSystem}
    (closed : session.files.closeStream stream = .ok after) :
    session.step (.closeStream index) = { session.withoutStream index with files := after } := by
  simp only [step, perform, opened, closed, adopt]

end Close

theorem run_append (session : Session) (first second : List Command) :
    session.run (first ++ second) = (session.run first).run second := by
  simp [run]

theorem run_concat (session : Session) (commands : List Command) (command : Command) :
    session.run (commands ++ [command]) = (session.run commands).step command :=
  run_append ..

end Session

end Depot.FileSystem

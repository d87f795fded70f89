import Depot.Archive.Fault
import Depot.Archive.Layout

set_option autoImplicit false

namespace Depot.Archive

/-- What has been written, the newest piece first. -/
abbrev Written := List Bytes

def Written.bytes (written : Written) : Bytes :=
  written.reverse.flatten

abbrev WriterM := EStateM WriteFault Written

namespace Writer

def write (piece : Bytes) : WriterM Unit :=
  modify fun written => piece :: written

/-- Runs a call and hands its failure over as a value. -/
def attempt {α : Type} (call : WriterM α) : WriterM (Except WriteFault α) :=
  fun written =>
    match call written with
    | .ok value written => .ok (.ok value) written
    | .error fault written => .ok (.error fault) written

def openArchive : WriterM Unit :=
  write opening

/-- Copies exactly `size` bytes from a source that delivers its data in the given pieces, up to the
first empty one. -/
def copy : (size : Nat) → (pieces : List Bytes) → WriterM Unit
  | 0, [] => pure ()
  | 0, piece :: _ => if piece = [] then pure () else throw .contentTooLong
  | _ + 1, [] => throw .contentTooShort
  | size + 1, piece :: rest =>
    if piece = [] then throw .contentTooShort
    else do
      write (piece.take (size + 1))
      if size + 1 < piece.length then throw .contentTooLong
      else copy (size + 1 - piece.length) rest

/-- Makes the open node a file of the given size. -/
def file (size : Nat) (pieces : List Bytes) : WriterM Unit := do
  write regular
  write (Bytes.ofNat 8 size)
  copy size pieces
  write (padding size)
  write closing

/-- Makes the open node a file with the given content. -/
def bytes (content : Bytes) : WriterM Unit :=
  file content.length [content]

/-- A directory that is being written: the names of its entries so far, the newest first. -/
structure Directory where
  names : List Bytes

def beginDirectory : WriterM Directory := do
  write directory
  return ⟨[]⟩

def Directory.endEntry (dir : Directory) : WriterM Unit :=
  if dir.names.isEmpty then pure () else write closing

/-- Starts an entry. A byte string that is no name, or the name of an entry, is refused. -/
def Directory.entry (dir : Directory) (name : Bytes) : WriterM Directory :=
  match Name.fault? name with
  | some error => throw (.invalidName error)
  | none =>
    if name ∈ dir.names then throw (.duplicateName name)
    else do
      dir.endEntry
      write Archive.entry
      write (string name)
      write node
      return ⟨name :: dir.names⟩

def Directory.close (dir : Directory) : WriterM Unit := do
  dir.endEntry
  write closing

mutual

/-- Makes the open node a copy of a member. -/
def member : Member → WriterM Unit
  | .file _ content => bytes content
  | .directory _ children => do entries (← beginDirectory) children

def entries (dir : Directory) : List Member → WriterM Unit
  | [] => dir.close
  | next :: rest => do
    let dir ← dir.entry next.name.bytes
    member next
    entries dir rest

end

/-- Makes the open node a directory with the given members. -/
def members (list : List Member) : WriterM Unit := do
  entries (← beginDirectory) list

end Writer

/-- Everything that a call writes into a new archive, with its outcome. -/
def WriterM.record {α : Type} (call : WriterM α) : Except WriteFault α × Bytes :=
  match call [] with
  | .ok value written => (.ok value, written.bytes)
  | .error fault written => (.error fault, written.bytes)

/-- The archive with the given members, if no directory has two entries of one name. -/
def encodePlain (members : List Member) : Except WriteFault Bytes :=
  match (do Writer.openArchive; Writer.members members : WriterM Unit).record with
  | (.ok (), bytes) => .ok bytes
  | (.error fault, _) => .error fault

end Depot.Archive

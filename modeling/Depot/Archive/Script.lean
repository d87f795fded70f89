import Depot.Archive.Writer

set_option autoImplicit false

namespace Depot.Archive

/-- What is done with an open node. -/
inductive Script where
  | nothing
  | bytes (content : Bytes)
  | file (size : Nat) (pieces : List Bytes)
  | members (list : List Member)
  | member (member : Member)
  | directory (entries : List (Bytes × Script)) (close : Bool)

/-- The calls that are noted. -/
inductive Call where
  | entry (name : Bytes)
  | bytes
  | file
  | members
  | member
  | close
deriving Repr, DecidableEq

/-- A call that was made, and why it failed if it did. -/
structure Note where
  call : Call
  fault? : Option WriteFault

namespace Script

def noted (call : Call) (run : WriterM Unit) : WriterM (List Note) := do
  match ← Writer.attempt run with
  | .ok () => return [⟨call, none⟩]
  | .error fault => return [⟨call, some fault⟩]

mutual

/-- Makes the calls for a node and returns their notes, in order. -/
def run : Script → WriterM (List Note)
  | nothing => return []
  | bytes content => noted .bytes (Writer.bytes content)
  | file size pieces => noted .file (Writer.file size pieces)
  | members list => noted .members (Writer.members list)
  | member item => noted .member (Writer.member item)
  | directory entries close => do
    let (notes, dir) ← runEntries (← Writer.beginDirectory) entries
    if close then return notes ++ (← noted .close dir.close) else return notes

def runEntries (dir : Writer.Directory) :
    List (Bytes × Script) → WriterM (List Note × Writer.Directory)
  | [] => return ([], dir)
  | (name, script) :: rest => do
    match ← Writer.attempt (dir.entry name) with
    | .error fault =>
      let (notes, dir) ← runEntries dir rest
      return (⟨.entry name, some fault⟩ :: notes, dir)
    | .ok next =>
      let inner ← run script
      let (notes, dir) ← runEntries next rest
      return (⟨.entry name, none⟩ :: (inner ++ notes), dir)

end

/-- The notes on a whole archive and the bytes written to it. -/
def record (script : Script) : List Note × Bytes :=
  match (do Writer.openArchive; run script : WriterM (List Note)).record with
  | (.ok notes, written) => (notes, written)
  | (.error _, written) => ([], written)

end Script

/-- Cuts data into pieces of at most the given length. Without any length there are no pieces. -/
def pieces (length : Nat) (data : Bytes) : List Bytes :=
  if length = 0 ∨ data = [] then []
  else data.take length :: pieces length (data.drop length)
termination_by data.length
decreasing_by
  have filled : 0 < data.length := List.length_pos_iff.mpr (by simp_all)
  simp only [List.length_drop]
  omega

end Depot.Archive

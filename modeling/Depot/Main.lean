import Depot.CommandLine.Run

set_option autoImplicit false

/-
The program: a command line on the disk of the machine. What a command can need of the disk is read
before it runs, and what it changes is changed afterwards.
-/

namespace Depot.Machine

def place (position : List Name) : String :=
  "/" ++ "/".intercalate (position.map Name.display)

def nowhere : Disk.Location := Bytes.ofString "/dev/null/nowhere"

/-- What has been read of the disk: its tree, and the directories that have been read in full. -/
structure Reading where
  items : List Disk.Item
  complete : List (List Name)

abbrev ReadM := StateT Reading IO

/-- Adds an item, unless one of its name has been read. -/
def keep (position : List Name) (item : Disk.Item) : ReadM Unit :=
  modify fun reading =>
    match (Disk.Item.inside? reading.items position).bind fun inner =>
      Disk.Item.named? inner item.name with
    | some _ => reading
    | none => { reading with items := Disk.Item.change (Disk.Item.put item) position reading.items }

/-- Reads what is at the end of some parts, counted from a directory, with all that is below it and
all that links on the way lead to. Where nothing is, nothing is read. -/
partial def capture (position : List Name) : (parts : List String) → ReadM Unit
  | [] => do
    if (← get).complete.contains position then return
    modify fun reading => { reading with complete := position :: reading.complete }
    for entry in ← ((← IO.currentDir) / place position).readDir do
      capture position [entry.fileName]
  | part :: rest => do
    if part = "" ∨ part = "." ∨ part = "/" then capture position rest
    else if part = ".." then capture position.dropLast rest
    else
      let .ok name := Name.ofString part | return
      let file := (← IO.currentDir) / place (position ++ [name])
      let .ok data ← file.symlinkMetadata.toBaseIO | return
      match data.type with
      | .dir =>
        keep position (.directory name [])
        capture (position ++ [name]) rest
      | .file => keep position (.file name (← IO.FS.readBinFile file).data.toList)
      | .symlink =>
        match ← (IO.FS.realPath file).toBaseIO with
        | .ok target =>
          keep position (.link name (Bytes.ofString target.toString))
          capture [] (target.components ++ rest)
        | .error _ => keep position (.link name nowhere)
      | .other => pure ()

def working : IO (List Name) := do
  return (← IO.currentDir).components.filterMap fun part => (Name.ofString part).toOption

/-- Reads the disk as far as some locations lead. -/
def snapshot (locations : List Disk.Location) : IO Disk := do
  let working ← working
  let read (location : Disk.Location) : ReadM Unit := do
    let start := if location.isAbsolute then [] else working
    capture [] (start.map Name.display ++ location.display.splitOn "/")
  let (_, reading) ← (locations.forM read).run ⟨[], []⟩
  return { Disk.blank with items := reading.items, working }

def replay : Disk.Change → IO Unit
  | .directory position name => IO.FS.createDir (place (position ++ [name]))
  | .file position name content =>
    IO.FS.writeBinFile (place (position ++ [name])) ⟨content.toArray⟩
  | .link .. => throw (IO.userError "no command makes links")
  | .remove position name => do
    let file := (← IO.currentDir) / place (position ++ [name])
    match (← file.symlinkMetadata).type with
    | .dir => IO.FS.removeDir file
    | _ => IO.FS.removeFile file

def locations : CommandLine.Command → List Disk.Location
  | .build manifest source out _ => [manifest, source, out]
  | .list archive => [archive]

/-- Runs a command and tells how it went: zero if it worked. -/
def run (command : CommandLine.Command) : IO UInt32 := do
  let (result, disk) := CommandLine.run Digest.blake3 command (← snapshot (locations command))
  disk.changes.reverse.forM replay
  match result with
  | .ok written =>
    IO.print written
    return 0
  | .error fault =>
    IO.eprintln fault.message
    return 1

end Depot.Machine

open Depot in
/-- Reads the command line and runs it. -/
def main (words : List String) : IO UInt32 := do
  let environment ← CommandLine.buildVariables.filterMapM fun (_, key) =>
    return (← IO.getEnv key).map fun value => (key, value)
  match CommandLine.Arguments.ofWords environment words with
  | .error fault =>
    IO.eprintln fault.code
    return 2
  | .ok arguments => Machine.run arguments.command

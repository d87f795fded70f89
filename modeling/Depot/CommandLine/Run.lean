import Depot.Archive.Compression
import Depot.CommandLine.Arguments
import Depot.Import
import Depot.Manifest.Resolution
import Depot.Packager

set_option autoImplicit false

namespace Depot.CommandLine

/-- Why a command fails. -/
inductive Fault where
  | packager (fault : PackagerFault)
  | manifest (fault : ManifestFault)
  /-- The manifest cannot be read from the disk. -/
  | manifestFile (fault : Disk.Fault)
  | sources (fault : Import.Fault)
  /-- The archive cannot be read from the disk. -/
  | archiveFile (fault : Disk.Fault)
  | archive (location : Disk.Location) (fault : Archive.ReadFault)
deriving DecidableEq

/-- The code of a fault, for programs. Those of the packager come first. -/
def Fault.code : Fault → String
  | packager fault => "Packaging:" ++ fault.code
  | manifest _ => "Packaging:Manifest"
  | manifestFile _ => "Packaging:Io"
  | sources (.walk _) => "Walk"
  | sources (.refused ..) => "Import"
  | sources (.unreadable _) | archiveFile _ | archive .. => "Io"

def Fault.message : Fault → String
  | packager fault => fault.message
  | manifest fault => fault.message
  | manifestFile fault => fault.message
  | sources fault => fault.message
  | archiveFile fault => fault.message
  | archive location fault => "i/o error at " ++ location.display ++ ": " ++ fault.message

/-- Builds all artifacts of the manifest at a location from the files below `source` and publishes
them in `out`. -/
def build (hash : Hash) (manifest source out : Disk.Location)
    (compression : Option Archive.Compression) (disk : Disk) : Except Fault Report × Disk :=
  let prepared : Except Fault (Config × FileSystem × Registry) := do
    let text ← (disk.readText manifest).mapError fun refusal =>
      .manifestFile { location := manifest, refusal }
    let parsed ←
      match Manifest.ofText? text with
      | some parsed => pure parsed
      | none => throw (.manifest .malformed)
    let imported ← (Import.importDirectory .following disk source .empty).mapError .sources
    let registry ← (parsed.registry imported.fs 0).mapError .manifest
    let config : Config :=
      { compression := compression.getD parsed.config.compression, outputDirectory := some out }
    return (config, imported.fs, registry)
  match prepared with
  | .error fault => (.error fault, disk)
  | .ok (config, fs, registry) =>
    let job : Packager.Job := { workspace := [fs], registry, hash, scope := .everything }
    let (result, _, disk) := (Packager.start config).run job disk
    (result.mapError .packager, disk)

def reportText (report : Report) : String :=
  String.join (report.updated.map (· ++ ": updated\n")) ++
    String.join (report.unchanged.map (· ++ ": unchanged\n"))

def list (archive : Disk.Location) (disk : Disk) : Except Fault String := do
  let data ← (disk.read archive).mapError fun refusal =>
    .archiveFile { location := archive, refusal }
  let members ← (Archive.decode data).mapError (.archive archive)
  return Member.listing members

/-- Runs a command: what it writes to its output, and the disk afterwards. -/
def run (hash : Hash) (command : Command) (disk : Disk) : Except Fault String × Disk :=
  match command with
  | .build manifest source out compression =>
    let (result, disk) := build hash manifest source out compression disk
    (result.map reportText, disk)
  | .list archive => (list archive disk, disk)

end Depot.CommandLine

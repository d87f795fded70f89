import Depot.Build.Update
import Depot.Config
import Depot.Disk.Publish

set_option autoImplicit false

/-
The packager: keeps the output of every artifact, in memory and, if asked for, on a disk. An
artifact that cannot be built or published keeps the output that it had.
-/

namespace Depot

/-- The output of an artifact, with the revision of the plan that it was built from. -/
structure Output where
  revision : Nat
  entries : List Entry

/-- A packager: the outputs by artifact, and the artifacts whose directories may not hold what they
should, because a publication ended early. -/
structure Packager where
  config : Config
  outputs : NameMap Output
  unsynced : List String

/-- Why an artifact is not updated. -/
inductive PackagerFault where
  | build (fault : BuildFault)
  | disk (fault : Disk.Fault)
deriving DecidableEq

def PackagerFault.code : PackagerFault → String
  | build fault => fault.code
  | disk _ => "Io"

def PackagerFault.message : PackagerFault → String
  | build fault => fault.message
  | disk fault => fault.message

/-- What an update did. -/
structure Report where
  updated : List String
  unchanged : List String
  effort : Effort
  written : Nat
deriving DecidableEq

namespace Report

def none : Report := ⟨[], [], .none, 0⟩

def append (first second : Report) : Report where
  updated := first.updated ++ second.updated
  unchanged := first.unchanged ++ second.unchanged
  effort := first.effort + second.effort
  written := first.written + second.written

end Report

namespace Packager

def start (config : Config) : Packager := ⟨config, .empty, []⟩

def output? (packager : Packager) (artifact : String) : Option (List Entry) :=
  (packager.outputs.find? artifact).map Output.entries

/-- The output that was built from the plan that an artifact has now. -/
def current? (packager : Packager) (artifact : Artifact) : Option (List Entry) :=
  match packager.outputs.find? artifact.name with
  | some output => if output.revision = artifact.revision then some output.entries else none
  | none => none

/-- What a run works with. -/
structure Job where
  workspace : Workspace
  registry : Registry
  hash : Hash
  codec : Archive.Compression.Codec := .stored
  scope : Scope

def Job.assembler (job : Job) (compression : Archive.Compression) (artifact : String) :
    Assembler where
  workspace := job.workspace
  registry := job.registry
  hash := job.hash
  codec := job.codec
  compression
  artifact

/-- Publishes the output of an artifact. It is left alone if it is the one from before, unless it is
not certain that this one is there. -/
def publish (packager : Packager) (name : String) (previous : Option (List Entry))
    (entries : List Entry) (unchanged : Bool) : PublishM Nat :=
  match packager.config.outputDirectory with
  | none => return 0
  | some directory =>
    let uncertain := packager.unsynced.contains name
    if unchanged && !uncertain then return 0
    else
      let previous := if uncertain then [] else previous.getD []
      Disk.publish (directory.join (Bytes.ofString name)) previous entries

/-- Stores the output of an artifact that was built and published. -/
def store (packager : Packager) (artifact : Artifact) (entries : List Entry) : Packager :=
  { packager with
    outputs := packager.outputs.insert artifact.name { revision := artifact.revision, entries }
    unsynced := packager.unsynced.filter (· ≠ artifact.name) }

/-- Notes that the publication of an artifact ended early. -/
def doubt (packager : Packager) (artifact : Artifact) : Packager :=
  if packager.unsynced.contains artifact.name then packager
  else { packager with unsynced := artifact.name :: packager.unsynced }

/-- Brings the output of one artifact up to date. -/
def update (job : Job) (packager : Packager) (disk : Disk) (artifact : Artifact) :
    Except PackagerFault Report × Packager × Disk :=
  let assembler := job.assembler packager.config.compression artifact.name
  let previous := packager.current? artifact
  match assembler.output job.scope artifact.plan previous with
  | .error fault => (.error (.build fault), packager, disk)
  | .ok (entries, effort) =>
    if previous.isNone ∧ entries.isEmpty ∧ job.scope.isChange then
      (.ok .none, packager, disk)
    else
      let digest := Entry.listDigest job.hash
      let unchanged := previous.any fun previous => digest previous = digest entries
      match packager.publish artifact.name previous entries unchanged disk with
      | .error fault disk => (.error (.disk fault), packager.doubt artifact, disk)
      | .ok written disk =>
        let names := [artifact.name]
        let report : Report :=
          if unchanged then { updated := [], unchanged := names, effort, written }
          else { updated := names, unchanged := [], effort, written }
        (.ok report, packager.store artifact entries, disk)

/-- Brings the outputs of some artifacts up to date, one after the other. -/
def updateEach (job : Job) (packager : Packager) (disk : Disk) :
    List Artifact → List (Except PackagerFault Report) × Packager × Disk
  | [] => ([], packager, disk)
  | artifact :: rest =>
    let (result, packager, disk) := update job packager disk artifact
    let (results, packager, disk) := updateEach job packager disk rest
    (result :: results, packager, disk)

def retain (packager : Packager) (registry : Registry) : Packager :=
  { packager with
    outputs := packager.outputs.filter fun name _ => (registry.find? name).isSome
    unsynced := packager.unsynced.filter fun name => (registry.find? name).isSome }

def summarize : List (Except PackagerFault Report) → Except PackagerFault Report
  | [] => .ok .none
  | .error fault :: _ => .error fault
  | .ok report :: rest => (summarize rest).map report.append

/-- Brings the outputs of all artifacts up to date, in the order of their names. A fault of one does
not keep the others from it. -/
def run (job : Job) (packager : Packager) (disk : Disk) :
    Except PackagerFault Report × Packager × Disk :=
  let (results, packager, disk) := updateEach job packager disk job.registry.artifacts.values
  (summarize results, packager.retain job.registry, disk)

end Packager

end Depot

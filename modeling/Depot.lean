import Depot.Archive.Script
import Depot.Disk.Arrange
import Depot.Expectation
import Depot.FileSystem.Basic
import Depot.Main
import Depot.Proofs.Archive.Delimiting
import Depot.Proofs.Archive.Script
import Depot.Proofs.Archive.Streaming
import Depot.Proofs.Build.Faults
import Depot.Proofs.Build.Origin
import Depot.Proofs.Build.Undisturbed
import Depot.Proofs.Disk.Exact
import Depot.Proofs.Expectation.Description
import Depot.Proofs.Expectation.Match
import Depot.Proofs.Expectation.Order
import Depot.Proofs.FileSystem.Ancestry
import Depot.Proofs.FileSystem.Commits
import Depot.Proofs.FileSystem.InPlace
import Depot.Proofs.FileSystem.LastLocation
import Depot.Proofs.FileSystem.Replay
import Depot.Proofs.Hierarchy
import Depot.Proofs.Import
import Depot.Proofs.Manifest
import Depot.Proofs.Member
import Depot.Proofs.Outline.Layout
import Depot.Proofs.Packager.Apart
import Depot.Proofs.Packager.Atomicity
import Depot.Proofs.Packager.FirstContact
import Depot.Proofs.Packager.Inclusion
import Depot.Proofs.Packager.Incremental
import Depot.Proofs.Packager.Meaning
import Depot.Proofs.Packager.Minimal
import Depot.Proofs.Packager.Provenance
import Depot.Proofs.Packager.Renames
import Depot.Proofs.Packager.Repeat
import Depot.Proofs.Packager.Replacement
import Depot.Proofs.Packager.Representation
import Depot.Proofs.Packager.Stamps
import Depot.Proofs.Packager.Unchanged
import Depot.Proofs.Packager.UpToDate
import Depot.Proofs.XPath.Binding
import Depot.Proofs.XPath.InPlace
import Depot.Sample
import Depot.XPath.Reference

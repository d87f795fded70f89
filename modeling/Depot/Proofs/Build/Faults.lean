import Depot.Proofs.Build.Blame
import Depot.Proofs.Build.Incremental

set_option autoImplicit false

namespace Depot

/-- Whether a fault comes up before an archive is written. -/
def BuildFault.Early : BuildFault → Prop
  | archive .. => False
  | unreadable .. | unknownArtifact _ | cycle _ | duplicateEntry .. => True

theorem BuildFault.Early.ne_archive {fault : BuildFault} (early : fault.Early) (artifact : String)
    (path : Path) (written : Archive.WriteFault) : fault ≠ .archive artifact path written := by
  rintro rfl
  exact early

theorem Registry.enter_early {registry : Registry} {chain : List String} {name : String}
    {fault : BuildFault} (failed : registry.enter chain name = .error fault) : fault.Early := by
  rcases enter_eq_error failed with ⟨_, rfl⟩ | ⟨_, rfl⟩
  · trivial
  · trivial

namespace Assembler

open Entry (Sealed)

variable {assembler : Assembler} {scope : Scope} {path : Path} {previous : Option (List Entry)}

/-- Every build of entries that carry their digests gives such entries. -/
theorem sealed_inherits (assembler : Assembler) :
    Inherits assembler (Sealed assembler.hash) (Sealed assembler.hash) where
  kept _ closed := closed
  inside _ before members closed held :=
    inside?_closed (fun _ same => Option.some.inj same ▸ closed) members held
  file _ _ _ _ := .file ..
  wrap kind _ _ _ _ _ _ _ distinct closed made := by
    cases kind with
    | directory =>
      cases made
      exact .directory distinct closed
    | archive =>
      obtain ⟨bytes, rfl⟩ := archive_eq_ok made
      exact .archive distinct closed

/-- An archive of entries that carry their digests and have distinct names is written. -/
theorem archive_written {name : Name} {before : Option (List Entry × Bytes)} {members : List Entry}
    (distinct : (members.map Entry.name).Nodup)
    (closed : ∀ member ∈ members, Sealed assembler.hash member) {fault : BuildFault} :
    assembler.archive path name before members ≠ .error fault := by
  obtain ⟨bytes, written⟩ :=
    Entry.encodeWith_of_sealed assembler.codec assembler.compression distinct closed
  unfold archive
  extract_lets hash kept?
  cases kept? with
  | some bytes => simp
  | none => simp [written]

theorem sealed_accounts (assembler : Assembler) :
    Accounts assembler BuildFault.Early (Sealed assembler.hash) where
  inherits := sealed_inherits assembler
  unreadable _ _ := trivial
  archive _ _ _ _ _ distinct closed failed := absurd failed (archive_written distinct closed)

/-- A build from entries that carry their digests never fails for an archive that cannot be written.
-/
theorem output_early {plan : Plan}
    (closed : ∀ members ∈ previous, ∀ member ∈ members, Sealed assembler.hash member)
    {fault : BuildFault} (failed : assembler.output scope plan previous = .error fault) :
    fault.Early := by
  have covers : BuildFault.Covers BuildFault.Early assembler.registry [assembler.artifact] plan :=
    ⟨fun _ _ => trivial, fun _ _ => trivial, fun _ _ _ _ failed => Registry.enter_early failed⟩
  exact output_blames (sealed_accounts assembler) covers closed failed

end Assembler

end Depot

import Depot.Proofs.Archive.RoundTrip
import Depot.Proofs.Build.Rendering

set_option autoImplicit false

namespace Depot

namespace Entry

/-- The digests of an entry are those of what it holds, at every depth, and siblings have distinct
names. -/
inductive Sealed (hash : Hash) : Entry → Prop where
  | file (name : Name) (content : Bytes) (stamp : Stamp) :
    Sealed hash (.ofFile hash name content stamp)
  | directory {name : Name} {children : List Entry} (distinct : (children.map Entry.name).Nodup)
    (inner : ∀ child ∈ children, Sealed hash child) : Sealed hash (.ofDirectory hash name children)
  | archive {name : Name} {members : List Entry} {bytes : Bytes}
    (distinct : (members.map Entry.name).Nodup) (inner : ∀ member ∈ members, Sealed hash member) :
      Sealed hash (.ofArchive hash name members bytes)

open Archive (encodeWith Compression)

/-- The bytes of each archive in an entry, at every depth, are those that its members give. -/
inductive Encoded (codec : Compression.Codec) (compression : Compression) : Entry → Prop where
  | file (name : Name) (content : Bytes) (stamp : Stamp) (digest : Digest) :
    Encoded codec compression (.file name content stamp digest)
  | directory {name : Name} {children : List Entry} {digest : Digest}
    (inner : ∀ child ∈ children, Encoded codec compression child) :
    Encoded codec compression (.directory name children digest)
  | archive {name : Name} {members : List Entry} {bytes : Bytes} {digest : Digest}
    (encoded : encodeWith codec compression (toMembers members) = .ok bytes)
    (inner : ∀ member ∈ members, Encoded codec compression member) :
    Encoded codec compression (.archive name members bytes digest)

mutual

/-- The byte strings that were hashed for an entry, and for the lists inside that are compared. -/
def hashed : Entry → List Bytes
  | file _ content _ _ => [content]
  | directory _ children _ => listing children :: hashedEach children
  | archive _ members bytes _ => bytes :: listing members :: hashedEach members

def hashedEach : List Entry → List Bytes
  | [] => []
  | entry :: rest => hashed entry ++ hashedEach rest

end

theorem hashedEach_eq (entries : List Entry) : hashedEach entries = entries.flatMap hashed := by
  induction entries with
  | nil => rfl
  | cons entry rest ih => rw [hashedEach, ih, List.flatMap_cons]

theorem hashed_subset {entries : List Entry} {entry : Entry} (present : entry ∈ entries) :
    hashed entry ⊆ hashedEach entries := by
  intro string inside
  rw [hashedEach_eq]
  exact List.mem_flatMap.mpr ⟨entry, present, inside⟩

theorem name_toMember (entry : Entry) : entry.toMember.name = entry.name := by
  cases entry <;> rfl

theorem eachUnambiguous_iff (members : List Member) :
    Member.EachUnambiguous members ↔ ∀ member ∈ members, member.Unambiguous := by
  induction members with
  | nil => simp [Member.EachUnambiguous]
  | cons member rest ih => simp [Member.EachUnambiguous, ih]

theorem distinctNames_toMembers {entries : List Entry} (distinct : (entries.map Entry.name).Nodup)
    (inner : ∀ entry ∈ entries, entry.toMember.Unambiguous) :
    Member.DistinctNames (toMembers entries) := by
  rw [toMembers_eq]
  refine ⟨?_, (eachUnambiguous_iff _).mpr fun member present => ?_⟩
  · have same : (entries.map toMember).map Member.name = entries.map Entry.name := by
      rw [List.map_map]
      exact List.map_congr_left fun entry _ => name_toMember entry
    rwa [same]
  · obtain ⟨entry, held, rfl⟩ := List.mem_map.mp present
    exact inner entry held

variable {hash : Hash}

theorem Sealed.unambiguous {entry : Entry} (closed : Sealed hash entry) :
    entry.toMember.Unambiguous := by
  induction closed with
  | file name content stamp => trivial
  | directory distinct _ ih => exact distinctNames_toMembers distinct ih
  | archive _ _ _ => trivial

theorem encodeWith_of_sealed (codec : Compression.Codec) (compression : Compression)
    {entries : List Entry} (distinct : (entries.map Entry.name).Nodup)
    (closed : ∀ entry ∈ entries, Sealed hash entry) :
    ∃ bytes, encodeWith codec compression (toMembers entries) = .ok bytes :=
  ⟨_, Archive.encodeWith_of_distinct codec compression
    (distinctNames_toMembers distinct fun entry present => (closed entry present).unambiguous)⟩

theorem Sealed.digested {entry : Entry} (closed : Sealed hash entry) : Digested hash entry := by
  induction closed with
  | file name content stamp => exact .file name content stamp
  | directory _ _ ih => exact .directory ih
  | archive _ _ _ => exact .archive _ _ _

theorem digestedEach_subset_of_each {entries : List Entry}
    (each : ∀ entry ∈ entries, entry.digested ⊆ entry.hashed) :
    digestedEach entries ⊆ hashedEach entries := by
  induction entries with
  | nil => exact List.Subset.refl _
  | cons entry rest ih =>
    obtain ⟨here, later⟩ := List.forall_mem_cons.mp each
    rw [digestedEach, hashedEach, List.append_subset]
    exact ⟨List.subset_append_of_subset_left _ here,
      List.subset_append_of_subset_right _ (ih later)⟩

theorem digested_subset (entry : Entry) : entry.digested ⊆ entry.hashed := by
  induction entry using induct with
  | file name content stamp digest => exact List.Subset.refl _
  | directory name children digest ih =>
    exact List.cons_subset_cons _ (digestedEach_subset_of_each ih)
  | archive name members bytes digest _ => simp [Entry.digested, hashed]

/-- The digests of a list rest on some of what was hashed for it. -/
theorem digestedEach_subset (entries : List Entry) : digestedEach entries ⊆ hashedEach entries :=
  digestedEach_subset_of_each fun entry _ => digested_subset entry

/-- Sealed lists with the same digest make the same archive, unless byte strings collide. -/
theorem toMembers_of_listDigest (lengths : ∀ content, (hash content).bytes.length = 32)
    {strings : List Bytes} (separates : hash.Separates strings)
    {left right : List Entry} (leftSealed : ∀ entry ∈ left, Sealed hash entry)
    (rightSealed : ∀ entry ∈ right, Sealed hash entry)
    (leftHashed : listing left :: hashedEach left ⊆ strings)
    (rightHashed : listing right :: hashedEach right ⊆ strings)
    (same : listDigest hash left = listDigest hash right) : toMembers left = toMembers right := by
  have within {entries : List Entry} (inside : listing entries :: hashedEach entries ⊆ strings) :
      listing entries :: digestedEach entries ⊆ strings :=
    List.Subset.trans (List.cons_subset_cons _ (digestedEach_subset entries)) inside
  have alike := alikeEach_of_listDigest lengths separates
    (fun entry present => (leftSealed entry present).digested)
    (fun entry present => (rightSealed entry present).digested) (within leftHashed)
    (within rightHashed) same
  rw [toMembers_eq, toMembers_eq]
  exact map_of_alike (fun entry _ other _ => toMember_of_alike entry other) alike

end Entry

end Depot

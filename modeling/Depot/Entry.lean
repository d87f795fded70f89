import Depot.Archive.Layout
import Depot.Digest
import Depot.FileSystem.Fault

set_option autoImplicit false

namespace Depot

/-- An entry of an output. -/
inductive Entry where
  /-- A file, with the stamp that its source had when it was read. -/
  | file (name : Name) (content : Bytes) (stamp : Stamp) (digest : Digest)
  | directory (name : Name) (children : List Entry) (digest : Digest)
  /-- An archive, with the entries that its bytes were made from. -/
  | archive (name : Name) (members : List Entry) (bytes : Bytes) (digest : Digest)

namespace Entry

def name : Entry → Name
  | file name .. => name
  | directory name .. => name
  | archive name .. => name

def digest : Entry → Digest
  | file _ _ _ digest => digest
  | directory _ _ digest => digest
  | archive _ _ _ digest => digest

def children : Entry → List Entry
  | file .. => []
  | directory _ children _ => children
  | archive _ members _ _ => members

def bytes? : Entry → Option Bytes
  | file _ content _ _ => some content
  | directory .. => none
  | archive _ _ bytes _ => some bytes

/-- The byte that tells the kinds of entries apart in the digest of a directory. -/
def kindByte : Entry → UInt8
  | file .. => 1
  | directory .. => 2
  | archive .. => 3

/-- What the digest of a directory is made from, for one entry. -/
def fingerprint (entry : Entry) : Bytes :=
  Bytes.ofNat 8 entry.name.bytes.length ++
    (entry.name.bytes ++ (entry.kindByte :: entry.digest.bytes))

def listDigest (hash : Hash) (entries : List Entry) : Digest :=
  hash (entries.flatMap fingerprint)

def ofFile (hash : Hash) (name : Name) (content : Bytes) (stamp : Stamp) : Entry :=
  file name content stamp (hash content)

def ofDirectory (hash : Hash) (name : Name) (children : List Entry) : Entry :=
  directory name children (listDigest hash children)

def ofArchive (hash : Hash) (name : Name) (members : List Entry) (bytes : Bytes) : Entry :=
  archive name members bytes (hash bytes)

mutual

def size : Entry → Nat
  | file .. => 1
  | directory _ children _ => sizeList children + 1
  | archive _ members _ _ => sizeList members + 1

def sizeList : List Entry → Nat
  | [] => 0
  | entry :: rest => size entry + sizeList rest

end

theorem sizeList_eq (entries : List Entry) : sizeList entries =
    @List.sum Nat instAddNat Zero.ofOfNat0 (entries.map size) := by
  induction entries with
  | nil => rfl
  | cons entry rest ih => rw [sizeList, ih, List.map_cons, List.sum_cons]

instance : Hierarchy Entry where
  name := name
  children := children
  size := size
  size_children entry := by cases entry <;> simp [children, size, sizeList_eq]

mutual

/-- An entry as it appears in an archive: archives inside are files with their bytes. -/
def toMember : Entry → Member
  | file name content _ _ => .file name content
  | directory name children _ => .directory name (toMembers children)
  | archive name _ bytes _ => .file name bytes

def toMembers : List Entry → List Member
  | [] => []
  | entry :: rest => toMember entry :: toMembers rest

end

def named? (entries : List Entry) (name : Name) : Option Entry :=
  entries.find? fun entry => entry.name = name

def lastNamed? (entries : List Entry) (name : Name) : Option Entry :=
  named? entries.reverse name

end Entry

end Depot

import Depot.Proofs.Archive.RoundTrip
import Depot.Proofs.Hierarchy
import Depot.Proofs.Text.Lines

set_option autoImplicit false

namespace Depot.Member

open Hierarchy (walk preorder)

mutual

/-- A member and those in it, each with the number of directories around it. -/
def nested (depth : Nat) : Member → List (Nat × Member)
  | file name content => [(depth, file name content)]
  | directory name children => (depth, directory name children) :: nestedEach (depth + 1) children

/-- The members of a directory and those in them, each with the number of directories around it. -/
def nestedEach (depth : Nat) : List Member → List (Nat × Member)
  | [] => []
  | member :: rest => nested depth member ++ nestedEach depth rest

end

/-- The line for a member: two spaces for each directory around it, its name, and a slash or its
size. -/
def row (depth : Nat) : Member → String
  | file name content =>
    String.ofList (List.replicate (2 * depth) ' ') ++ name.display ++
      " (" ++ toString content.length ++ " bytes)"
  | directory name _ => String.ofList (List.replicate (2 * depth) ' ') ++ name.display ++ "/"

def lineFeed : UInt8 := 0x0A

mutual

/-- The paths of a walk have one name for each directory around a member, and its own. -/
theorem preorder_nested (parent : Path) : (member : Member) →
    (preorder parent member).map (fun located => (located.1.names.length - 1, located.2)) =
      nested parent.names.length member
  | file name content => by
    rw [Hierarchy.preorder_eq]
    simp [Hierarchy.children, children, Path.push, nested]
  | directory name inner => by
    rw [Hierarchy.preorder_eq, List.map_cons]
    have deeper := preorder_nestedEach (parent.push name) inner
    simp only [Path.push, List.length_append, List.length_singleton] at deeper
    rw [nested, ← deeper]
    simp [Hierarchy.children, Hierarchy.name, children, Member.name, Path.push]

theorem preorder_nestedEach (parent : Path) : (members : List Member) →
    (members.flatMap (preorder parent)).map
      (fun located => (located.1.names.length - 1, located.2)) =
      nestedEach parent.names.length members
  | [] => rfl
  | member :: rest => by
    rw [List.flatMap_cons, List.map_append, preorder_nested parent member,
      preorder_nestedEach parent rest, nestedEach]

end

theorem walk_nested (members : List Member) :
    (walk members).map (fun located => (located.1.names.length - 1, located.2)) =
      nestedEach 0 members := by
  rw [Hierarchy.walk_eq]
  exact preorder_nestedEach .root members

theorem line_eq (path : Path) (member : Member) : line path member =
    row (path.names.length - 1) member := by
  have indent (count : Nat) : String.join (List.replicate count "  ") =
      String.ofList (List.replicate (2 * count) ' ') := by
    rw [← String.toList_inj, String.toList_join, String.toList_ofList]
    induction count with
    | zero => rfl
    | succ count ih =>
      rw [List.replicate_succ, List.flatMap_cons, ih, Nat.mul_succ, List.replicate_succ,
        List.replicate_succ]
      rfl
  cases member <;> simp [line, row, indent, Member.name, String.append_assoc]

/-- A listing is the lines of all members. -/
theorem listing_eq (members : List Member) :
    listing members = String.join
      (((nestedEach 0 members).map fun nested => row nested.1 nested.2).map (· ++ "\n")) := by
  rw [listing, ← walk_nested, List.map_map, List.map_map]
  exact congrArg String.join (List.map_congr_left fun located _ => by
    simp [line_eq])

/-- The line of a member has the line feeds of its name. -/
theorem count_row (depth : Nat) (member : Member) :
    (row depth member).toList.count '\n' = member.name.bytes.count lineFeed := by
  have display (name : Name) : name.display.toList.count '\n' = name.bytes.count lineFeed :=
    Text.Utf8.count_lossy lineFeed (by decide) name.bytes
  have number (value : Nat) : (Nat.toDigits 10 value).count '\n' = 0 := by
    rw [List.count_eq_zero]
    intro digits
    exact absurd (Nat.isDigit_of_mem_toDigits (by decide) (by decide) digits) (by decide)
  cases member with
  | file name content =>
    simp [row, Member.name, display, number, List.count_replicate]
  | directory name inner =>
    simp [row, Member.name, display, List.count_replicate]

theorem clean_row_iff (depth : Nat) (member : Member) :
    '\n' ∉ (row depth member).toList ↔ lineFeed ∉ member.name.bytes := by
  rw [← List.count_eq_zero, count_row, List.count_eq_zero]

/-- A listing has the line feeds that end its lines, and those of all names. -/
theorem count_rows (rows : List (Nat × Member)) :
    (String.join ((rows.map fun nested => row nested.1 nested.2).map (· ++ "\n"))).toList.count
      '\n' =
      rows.length + (rows.flatMap fun nested => nested.2.name.bytes).count lineFeed := by
  rw [String.toList_join]
  induction rows with
  | nil => rfl
  | cons first rest ih =>
    simp only [List.map_cons, List.flatMap_cons, List.count_append, ih,
      String.toList_append, count_row, List.length_cons]
    have feed : "\n".toList.count '\n' = 1 := rfl
    omega

/-- The rows of a listing are those of the members that a walk visits, in its order, where the
number of directories around each of them is counted as the parts of its path. They are the lines of
the listing exactly if there is no line feed in a name; in any case there are as many lines as
members and line feeds in their names. -/
theorem listing_lines (members : List Member) :
    nestedEach 0 members = (walk members).map (fun located =>
      ((Path.Flat.components located.1.bytes).length - 1, located.2)) ∧
    listing members = String.join
      (((nestedEach 0 members).map fun nested => row nested.1 nested.2).map (· ++ "\n")) ∧
    (Text.endedLines? (listing members) = some ((nestedEach 0 members).map fun nested =>
      row nested.1 nested.2) ↔ ∀ located ∈ walk members, lineFeed ∉ located.2.name.bytes) ∧
    ∃ lines, Text.endedLines? (listing members) = some lines ∧
      lines.length = (walk members).length +
        ((walk members).flatMap fun located => located.2.name.bytes).count lineFeed := by
  refine ⟨?_, listing_eq members, ?_, ?_⟩
  · rw [← walk_nested]
    exact List.map_congr_left fun located _ => by rw [Path.Flat.components_bytes, List.length_map]
  · rw [Text.endedLines?_eq_some_iff, and_iff_right (listing_eq members), ← walk_nested,
      List.map_map, List.forall_mem_map]
    exact forall₂_congr fun located _ => clean_row_iff _ located.2
  · obtain ⟨lines, ended⟩ := Text.exists_endedLines (listing_eq members)
    refine ⟨lines, ended, ?_⟩
    rw [Text.length_endedLines? ended, listing_eq, count_rows, ← walk_nested, List.length_map,
      List.flatMap_map]

end Depot.Member

namespace Depot.Sample

def torn : Name := ⟨Bytes.ofString "a\nb", by decide⟩

end Depot.Sample

namespace Depot.Member

open Sample

/-- An archive may hold a file whose name has a line feed, and is then listed as if it had two
members. -/
theorem listing_torn :
    Archive.decode (Archive.layoutArchive [.file torn text]) = .ok [.file torn text] ∧
      (Hierarchy.walk [Member.file torn text]).length = 1 ∧
      Text.endedLines? (listing [.file torn text]) = some ["a", "b (4 bytes)"] := by
  have plain : Archive.isCompressed (Archive.layoutArchive [.file torn text]) = false := rfl
  have measurable : EachMeasurable [.file torn text] := by
    simp only [EachMeasurable, Measurable, and_true]
    decide
  have read : Archive.decodePlain (Archive.layoutArchive [.file torn text]) =
      .ok [.file torn text] :=
    Archive.decodePlain_eq_ok.mpr ⟨⟨by decide, by decide, measurable⟩, rfl⟩
  exact ⟨(Archive.decodeWith_of_plain .stored plain).trans read, by decide +kernel,
    by decide +kernel⟩

end Depot.Member

import Depot.Import
import Depot.Proofs.Disk.Exact
import Depot.Proofs.FileSystem.Refinement
import Depot.Proofs.Hierarchy
import Depot.Proofs.Path.Flat

set_option autoImplicit false

namespace Depot.Import

open Disk (Item Location)
open FileSystem (Occupant Tree Content rootId)
open Hierarchy (walk Stands)

theorem steps_bytes (path : Path) : Location.steps path.bytes = path.names.map Name.bytes := by
  by_cases empty : path.names = []
  · rw [Path.bytes_eq_nil_iff.mpr empty, empty]
    rfl
  · rw [Location.steps, Path.parts_bytes empty, List.filter_eq_self]
    intro step present
    obtain ⟨name, _, rfl⟩ := List.mem_map.mp present
    obtain ⟨filled, dot, _, _⟩ := name.facts
    simp [filled, dot]

theorem isAbsolute_bytes (path : Path) : Location.isAbsolute path.bytes = false := by
  rw [Location.isAbsolute, decide_eq_false_iff_not]
  intro slash
  obtain ⟨rest, whole⟩ := List.head?_eq_some_iff.mp slash
  have filled : path.names ≠ [] := by
    intro none
    rw [Path.bytes_eq_nil_iff.mpr none] at whole
    cases whole
  have split := Path.parts_bytes filled
  rw [whole, Path.parts, if_pos rfl] at split
  obtain ⟨name, _, empty⟩ := List.mem_map.mp (split ▸ List.mem_cons_self)
  exact name.facts.1 empty

/-- The bytes of a path whose names are texts lead to this path. -/
theorem pathFor_bytes {path : Path} (textual : ∀ name ∈ path.names, name.Textual) :
    pathFor path.bytes = .ok path := by
  rw [pathFor, isAbsolute_bytes, if_neg Bool.false_ne_true, steps_bytes,
    Path.mapM_bytes fun name present => ?_]
  · rfl
  · have valid : Text.Utf8.decode? name.bytes = some name.display := by
      rw [← textual name present, Text.Utf8.decode?_ofString]
    rw [if_neg (by simp [name.facts.2.2.1, valid]), Name.ofBytes_bytes]

def bytes? : Item → Option Bytes
  | .file _ content => some content
  | _ => none

/-- The nodes that items become which are added to an empty file system one after the other: they
are numbered and dated in this order, after the root. -/
def enrolled (items : List (Path × Item)) : List (Path × Occupant) :=
  (.root, ⟨rootId, none, 1, true⟩) :: items.mapIdx fun index located =>
    (located.1, ⟨index + 1, bytes? located.2, .ofNat (index + 2), true⟩)

/-- The items that have been imported, and nothing else, are in the file system. -/
structure Laid (items : List (Path × Item)) (progress : Progress) : Prop where
  tree : Tree progress.fs
  census : progress.fs.census = enrolled items
  length : progress.fs.nodes.length = items.length + 1
  lastStamp : progress.fs.lastStamp = .ofNat (items.length + 1)
  files : progress.files = items.countP fun located => (bytes? located.2).isSome

theorem enrolled_concat (items : List (Path × Item)) (path : Path) (item : Item) :
    enrolled (items ++ [(path, item)]) = enrolled items ++
      [(path, ⟨items.length + 1, bytes? item, .ofNat (items.length + 2), true⟩)] := by
  simp [enrolled, List.mapIdx_concat]

theorem mem_enrolled {items : List (Path × Item)} {path : Path} {occupant : Occupant} :
    (path, occupant) ∈ enrolled items ↔
      path = .root ∧ occupant = ⟨rootId, none, 1, true⟩ ∨
        ∃ index item, items[index]? = some (path, item) ∧
          occupant = ⟨index + 1, bytes? item, .ofNat (index + 2), true⟩ := by
  simp only [enrolled, List.mem_cons, List.mem_mapIdx, Prod.mk.injEq]
  refine or_congr_right ⟨?_, ?_⟩
  · rintro ⟨index, inside, rfl, rfl⟩
    exact ⟨index, items[index].2, List.getElem?_eq_getElem inside, rfl⟩
  · rintro ⟨index, item, found, rfl⟩
    obtain ⟨inside, found⟩ := List.getElem?_eq_some_iff.mp found
    exact ⟨index, inside, by rw [found], by rw [found]⟩

theorem Laid.empty : Laid [] ⟨.empty, 0⟩ where
  tree := Tree.empty
  census := by
    show [(FileSystem.empty.path rootId, _)] = _
    rw [Tree.empty.path_root]
    rfl
  length := rfl
  lastStamp := rfl
  files := rfl

/-- Where an import may add something: at the root, or in a directory that has been imported. -/
def Open (items : List (Path × Item)) (path : Path) : Prop :=
  path = .root ∨ ∃ name inner, (path, Item.directory name inner) ∈ items

variable {items : List (Path × Item)} {progress : Progress} {path : Path} {name : Name}

theorem Laid.directory (laid : Laid items progress) (around : Open items path) :
    ∃ id, progress.fs.find? path = some id ∧ progress.fs.isLive id = true ∧
      progress.fs.path id = path ∧ progress.fs.isDirectory id = true := by
  have present : ∃ occupant, (path, occupant) ∈ enrolled items ∧ occupant.bytes? = none := by
    rcases around with rfl | ⟨name, inner, present⟩
    · exact ⟨_, List.mem_cons_self, rfl⟩
    · obtain ⟨index, found⟩ := List.mem_iff_getElem?.mp present
      exact ⟨_, mem_enrolled.mpr (.inr ⟨index, _, found, rfl⟩), rfl⟩
  obtain ⟨occupant, present, kind⟩ := present
  rw [← laid.census] at present
  obtain ⟨alive, spelled, held⟩ := FileSystem.mem_census.mp present
  refine ⟨occupant.node, spelled ▸ laid.tree.find?_path alive, alive, spelled, ?_⟩
  rw [FileSystem.isDirectory_of_occupant? held, kind]
  rfl

/-- There is nothing at other paths. -/
theorem Laid.absent (laid : Laid items progress) {id : NodeId}
    (alive : progress.fs.isLive id = true)
    (fresh : (progress.fs.path id).push name ∉ items.map Prod.fst) :
    progress.fs.child? id name = none := by
  rw [← laid.tree.index_push_eq_none alive, FileSystem.index, List.lookup_eq_none_iff, laid.census]
  rintro ⟨path, occupant⟩ present
  rw [bne_iff_ne]
  rintro rfl
  rcases mem_enrolled.mp present with ⟨root, _⟩ | ⟨index, item, found, _⟩
  · exact absurd (congrArg Path.names root) (by simp [Path.push, Path.root])
  · exact fresh (List.mem_map_of_mem (List.mem_of_getElem? found))

/-- One item more. -/
theorem Laid.add (laid : Laid items progress) (around : Open items path)
    (fresh : path.push name ∉ items.map Prod.fst) (item : Item) (content : Content)
    (same : content.bytes? = bytes? item) (childless : content.listing = []) :
    ∃ id, progress.fs.find? path = some id ∧ progress.fs.isDirectory id = true ∧
      progress.fs.child? id name = none ∧
      Laid (items ++ [(path.push name, item)])
        ⟨(progress.fs.insert id name content).2, progress.files +
          (if (bytes? item).isSome then 1 else 0)⟩ := by
  obtain ⟨id, found, alive, spelled, directory⟩ := laid.directory around
  have absent := laid.absent alive (spelled ▸ fresh)
  have one : (UInt64.ofNat 1) = 1 := rfl
  refine ⟨id, found, directory, absent, ?_, ?_, ?_, ?_, ?_⟩
  · exact laid.tree.insert alive directory absent childless
  · rw [laid.tree.census_insert alive directory absent childless, laid.census,
      enrolled_concat, spelled, same, laid.length, laid.lastStamp, ← one, ← UInt64.ofNat_add]
  · rw [FileSystem.length_insert, laid.length, List.length_append, List.length_singleton]
  · show progress.fs.lastStamp + 1 = _
    rw [laid.lastStamp, List.length_append, List.length_singleton, ← one, ← UInt64.ofNat_add]
  · rw [List.countP_append, laid.files, List.countP_singleton]

theorem Laid.addDirectory (laid : Laid items progress) (around : Open items path)
    (fresh : path.push name ∉ items.map Prod.fst)
    (textual : ∀ other ∈ (path.push name).names, other.Textual)
    (location : Location) (inner : List Item) :
    ∃ after, addDirectory location (path.push name).bytes progress = .ok after ∧
      Laid (items ++ [(path.push name, .directory name inner)]) after := by
  obtain ⟨id, found, directory, absent, laid⟩ :=
    laid.add around fresh (.directory name inner) (.directory []) rfl rfl
  refine ⟨_, ?_, laid⟩
  rw [Import.addDirectory, pathFor_bytes textual]
  simp only [FileSystem.createDirectory_missing textual found directory absent]
  rfl

theorem Laid.addFile {disk : Disk} {location : Location} {content : Bytes}
    (laid : Laid items progress)
    (around : Open items path) (fresh : path.push name ∉ items.map Prod.fst)
    (textual : ∀ other ∈ (path.push name).names, other.Textual)
    (read : disk.read location = .ok content) :
    ∃ after, addFile disk location (path.push name).bytes progress = .ok after ∧
      Laid (items ++ [(path.push name, .file name content)]) after := by
  obtain ⟨id, found, directory, absent, laid⟩ :=
    laid.add around fresh (.file name content) (.file content) rfl rfl
  refine ⟨_, ?_, laid⟩
  rw [Import.addFile, pathFor_bytes textual]
  simp only [read, FileSystem.createFile_missing textual found directory absent]
  rfl

/-- What is relied on of a walk through a directory: it comes to all that is inside once, to a
directory before what is in it, and to what is next to each other in the order of the names. -/
structure Walks (walker : Walker) (disk : Disk) (location : Location) (inside : List Item)
    (order : List (Path × Item)) : Prop where
  yields : walker disk location = order.map fun located => .ok ⟨located.1, located.2.isDirectory⟩
  once : order.Perm (walk inside)
  parents : order.Pairwise fun earlier later => ¬ later.1.names <+: earlier.1.names
  siblings : order.Pairwise Hierarchy.Siblings

section Locations

variable {location : Location}

end Locations

section Reading

variable {disk : Disk} {location : Location} {position : List Name} {inside : List Item}

end Reading

section Walks

variable {walker : Walker} {disk : Disk} {location : Location} {position : List Name}
  {inside : List Item} {order : List (Path × Item)}

/-- What an import makes of an item that a walk comes to. -/
def visit (disk : Disk) (location : Location) (progress : Progress) (located : Path × Item) :
    Except Fault Progress :=
  add disk location progress (.ok ⟨located.1, located.2.isDirectory⟩)

theorem Walks.mem_iff (walks : Walks walker disk location inside order) {path : Path}
    {item : Item} :
    (path, item) ∈ order ↔ Stands inside path.names item := by
  rw [walks.once.mem_iff, Hierarchy.mem_walk_iff]

theorem Walks.nodup (walks : Walks walker disk location inside order)
    (distinct : Hierarchy.Distinct inside) : (order.map Prod.fst).Nodup := by
  have nodup := distinct.nodup .root
  rw [← Hierarchy.walk_eq] at nodup
  exact (walks.once.map Prod.fst).nodup_iff.mpr nodup

/-- When a walk comes to an item, it has been to the directory around it. -/
theorem Walks.open (walks : Walks walker disk location inside order)
    {items rest : List (Path × Item)}
    {path : Path} {item : Item} (split : order = items ++ (path, item) :: rest) :
    ∃ around, path = around.push item.name ∧ Open items around := by
  have present : (path, item) ∈ order := split ▸ List.mem_append_right _ List.mem_cons_self
  obtain ⟨front, named, around⟩ := (walks.mem_iff.mp present).exists_around
  refine ⟨⟨front⟩, congrArg Path.mk named, ?_⟩
  rcases around with rfl | ⟨outer, stands, held⟩
  · exact .inl rfl
  have visited : (⟨front⟩, outer) ∈ items ++ (path, item) :: rest :=
    split ▸ walks.mem_iff.mpr stands
  have later := walks.parents
  rw [split, List.pairwise_append, List.pairwise_cons] at later
  rcases List.mem_append.mp visited with before | after
  · cases outer with
    | file | link => cases held
    | directory name inner => exact .inr ⟨name, inner, before⟩
  · rcases List.mem_cons.mp after with same | after
    · cases same
      simp at named
    · refine absurd ?_ (later.2.1.1 _ after)
      exact named ▸ List.prefix_append front [_]

end Walks

/-- An item has the number and the stamp that follow from its place among the items. -/
theorem Laid.of_getElem? (laid : Laid items progress) {index : Nat} {item : Item}
    (found : items[index]? = some (path, item)) :
    progress.fs.isLive (index + 1) = true ∧ progress.fs.path (index + 1) = path ∧
      progress.fs.stamp (index + 1) = .ofNat (index + 2) := by
  have present := mem_enrolled.mpr (.inr ⟨index, item, found, rfl⟩)
  rw [← laid.census] at present
  obtain ⟨alive, spelled, held⟩ := FileSystem.mem_census.mp present
  exact ⟨alive, spelled, by rw [FileSystem.stamp_eq, held]; rfl⟩

/-- A node apart from the root is one of the items. -/
theorem Laid.exists_item (laid : Laid items progress) {id : NodeId}
    (inside : id < progress.fs.nodes.length) (other : id ≠ rootId) : ∃ index item, id = index + 1 ∧
      items[index]? = some (progress.fs.path id, item) := by
  obtain ⟨index, rfl⟩ := Nat.exists_eq_succ_of_ne_zero other
  rw [laid.length] at inside
  obtain ⟨⟨path, item⟩, found⟩ : ∃ located, items[index]? = some located :=
    ⟨_, List.getElem?_eq_getElem (Nat.lt_of_succ_lt_succ inside)⟩
  have spelled := (laid.of_getElem? found).2.1
  exact ⟨index, item, rfl, by rw [spelled, found]⟩

/-- Two nodes in one directory are two items in one directory, in the same order. -/
theorem Laid.ordered (laid : Laid items progress) (siblings : items.Pairwise Hierarchy.Siblings)
    (id : NodeId) :
    (progress.fs.children id).Pairwise fun left right =>
      ∃ first second, progress.fs.name left = .ok first ∧ progress.fs.name right = .ok second ∧
        first.precedes second = true := by
  have tree := laid.tree
  have placed {child : NodeId} (listed : child ∈ progress.fs.children id) :
      ∃ name index item, progress.fs.name child = .ok name ∧ child = index + 1 ∧
        items[index]? = some ((progress.fs.path id).push name, item) := by
    obtain ⟨name, place⟩ := FileSystem.parent?_eq_some.mp (tree.listed id child listed).1
    have other : child ≠ rootId := by
      rintro rfl
      rw [tree.rootUnplaced] at place
      cases place
    obtain ⟨index, item, number, found⟩ :=
      laid.exists_item (FileSystem.lt_length_of_place place) other
    rw [FileSystem.path, tree.names_child place] at found
    exact ⟨name, index, item, by rw [FileSystem.name, place], number, found⟩
  refine (tree.ascending id).imp_of_mem fun {left right} leftListed rightListed less => ?_
  obtain ⟨first, index, item, named, rfl, found⟩ := placed leftListed
  obtain ⟨second, index', item', named', rfl, found'⟩ := placed rightListed
  obtain ⟨inside, found⟩ := List.getElem?_eq_some_iff.mp found
  obtain ⟨inside', found'⟩ := List.getElem?_eq_some_iff.mp found'
  have before := List.pairwise_iff_getElem.mp siblings index index' inside inside'
    (Nat.lt_of_succ_lt_succ less)
  rw [found, found'] at before
  exact ⟨first, second, named, named', before _ first second rfl rfl⟩

/-- Stamps ascend with the numbers. -/
theorem Laid.stamp (laid : Laid items progress) {id : NodeId}
    (inside : id < progress.fs.nodes.length) :
    progress.fs.stamp id = .ofNat (id + 1) := by
  by_cases other : id = rootId
  · have root : (Path.root, ⟨rootId, none, 1, true⟩) ∈ progress.fs.census :=
      laid.census ▸ List.mem_cons_self
    rw [other, FileSystem.stamp_eq, (FileSystem.mem_census.mp root).2.2]
    rfl
  · obtain ⟨index, item, rfl, found⟩ := laid.exists_item inside other
    exact (laid.of_getElem? found).2.2

theorem Laid.dated (laid : Laid items progress) (fits : items.length + 1 < UInt64.size)
    {ancestor id : NodeId}
    (alive : progress.fs.isLive id = true) (above : progress.fs.isAncestor ancestor id = true)
    (other : ancestor ≠ id) : progress.fs.stamp ancestor < progress.fs.stamp id := by
  have inside := FileSystem.lt_length_of_isLive alive
  have less := Nat.lt_of_le_of_ne (FileSystem.le_of_isAncestor above) other
  have bound := laid.length
  rw [laid.stamp inside, laid.stamp (Nat.lt_trans less inside), UInt64.lt_iff_toNat_lt,
    UInt64.toNat_ofNat_of_lt' (by lia), UInt64.toNat_ofNat_of_lt' (by lia)]
  exact Nat.succ_lt_succ less

/-- A file system holds some items and nothing else. Each node that has not been deleted, apart from
the root, is one of the items, at its path: a file with its bytes, or a directory, which has none. A
directory lists what it holds in the order of the names, and has a smaller stamp than all that it
holds at any depth, as long as the stamps did not start again. -/
structure Mirrors (items : List (Path × Item)) (fs : FileSystem) : Prop where
  census : (fs.census.map fun known => (known.1, known.2.bytes?)) =
    (.root, none) :: items.map fun located => (located.1, bytes? located.2)
  distinct : (Path.root :: items.map Prod.fst).Nodup
  ordered : ∀ id, (fs.children id).Pairwise fun left right =>
    ∃ first second, fs.name left = .ok first ∧ fs.name right = .ok second ∧
      first.precedes second = true
  dated : items.length + 1 < UInt64.size → ∀ {ancestor id : NodeId}, fs.isLive id = true →
    fs.isAncestor ancestor id = true → ancestor ≠ id →
    fs.stamp ancestor < fs.stamp id

theorem Laid.mirrors (laid : Laid items progress)
    (distinct : (Path.root :: items.map Prod.fst).Nodup)
    (siblings : items.Pairwise Hierarchy.Siblings) : Mirrors items progress.fs where
  census := by
    rw [laid.census, enrolled, List.map_cons]
    refine congrArg ((Path.root, none) :: ·) (List.ext_getElem? fun index => ?_)
    simp [Function.comp_def]
  distinct := distinct
  ordered := laid.ordered siblings
  dated := laid.dated

namespace Sample

open Depot.Sample (text newText)
open Depot.Hierarchy.Sample (lib)

def src : Name := ⟨Bytes.ofString "src", by decide⟩

def empty : Name := ⟨Bytes.ofString "über", by decide⟩

/-- A file and an empty directory in a directory, and a file next to it. -/
def sources : List Item :=
  [.directory lib [.file src text, .directory empty []], .file src newText]

def alone : Disk :=
  { Disk.blank with items := [.directory src [.file src text]] }

end Sample

end Depot.Import

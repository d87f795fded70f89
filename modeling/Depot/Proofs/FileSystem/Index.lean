import Depot.Proofs.FileSystem.Lookup
import Depot.Proofs.FileSystem.Stamps

set_option autoImplicit false

namespace Depot

namespace Path

def along (path : Path) : List Name → List Path
  | [] => []
  | name :: rest => path.push name :: (path.push name).along rest

/-- A path after what is at `place` has got another name. This is seen in the paths that lead there
or below it, and nowhere else. -/
def renamed (path place : Path) (name : Name) : Path :=
  if place.names <+: path.names then ⟨path.names.set (place.names.length - 1) name⟩ else path

theorem along_append (path : Path) (first second : List Name) :
    path.along (first ++ second) = path.along first ++
      (Path.mk (path.names ++ first)).along second := by
  induction first generalizing path with
  | nil => simp [along]
  | cons name rest ih => simp [along, ih, push]

/-- All paths on the way are deeper than the start. -/
theorem length_of_mem_along {path other : Path} {names : List Name}
    (passed : other ∈ path.along names) :
    path.names.length < other.names.length ∧
      other.names.length ≤ path.names.length + names.length := by
  induction names generalizing path with
  | nil => cases passed
  | cons name rest ih =>
    rcases List.mem_cons.mp passed with rfl | later
    · simp [push]
    · have deeper := ih later
      simp only [push, List.length_append, List.length_cons, List.length_nil] at deeper
      simp only [List.length_cons]
      omega

end Path

namespace FileSystem

abbrev Index := Path → Option Occupant

namespace Index

def put (index : Index) (path : Path) (occupant : Occupant) : Index := fun other =>
  if other = path then some occupant else index other

/-- Puts new nodes at some paths, numbered and dated one by one from the given number and stamp on.
-/
def grow (index : Index) (node : NodeId) (stamp : Stamp) : List (Path × Option Bytes) → Index
  | [] => index
  | (path, bytes?) :: rest => (index.put path ⟨node, bytes?, stamp, true⟩).grow (node + 1)
    (stamp + 1) rest

def revise (index : Index) (id : NodeId) (change : Occupant → Occupant) : Index := fun path =>
  (index path).map (·.revise id change)

def without (index : Index) (path : Path) : Index := fun other =>
  if path.names <+: other.names then none else index other

/-- The paths at which there is nothing yet, of those that are passed when names are followed. -/
def missing (index : Index) (path : Path) (names : List Name) : List Path :=
  (path.along names).filter fun other => (index other).isNone

section Missing

variable {index : Index} {path : Path} {name : Name} (rest : List Name)

theorem missing_of_present (present : (index (path.push name)).isSome) :
    index.missing path (name :: rest) = index.missing (path.push name) rest := by
  obtain ⟨occupant, shown⟩ := Option.isSome_iff_exists.mp present
  simp [missing, Path.along, shown]

theorem missing_of_absent (absent : index (path.push name) = none) :
    index.missing path (name :: rest) = path.push name :: index.missing (path.push name) rest := by
  simp [missing, Path.along, absent]

/-- What is put at the start does not matter further down. -/
theorem missing_put (occupant : Occupant) :
    (index.put path occupant).missing path rest = index.missing path rest := by
  refine List.filter_congr fun other passed => ?_
  have deeper := (Path.length_of_mem_along passed).1
  have unequal : other ≠ path := by
    rintro rfl
    omega
  rw [put, if_neg unequal]

end Missing

theorem grow_append (index : Index) (node : NodeId) (stamp : Stamp)
    (first second : List (Path × Option Bytes)) :
    index.grow node stamp (first ++ second) =
      (index.grow node stamp first).grow (node + first.length)
        (stamp.after first.length) second := by
  induction first generalizing index node stamp with
  | nil => simp [grow, Stamp.after_zero]
  | cons new rest ih =>
    simp only [List.cons_append, grow, ih, List.length_cons, Stamp.next_after]
    congr 1
    lia

/-- Where nothing new is put, all stays as it is. -/
theorem grow_of_not_mem {index : Index} {node : NodeId} {stamp : Stamp}
    {news : List (Path × Option Bytes)} {path : Path} (absent : path ∉ news.map Prod.fst) :
    index.grow node stamp news path = index path := by
  induction news generalizing index node stamp with
  | nil => rfl
  | cons new rest ih =>
    obtain ⟨unequal, later⟩ := not_or.mp (List.mem_cons.not.mp absent)
    rw [grow, ih later, put, if_neg unequal]

end Index

/-- The nodes that have not been deleted, each with its path. -/
def census (fs : FileSystem) : List (Path × Occupant) :=
  ((List.range fs.nodes.length).filter fs.isLive).filterMap fun id =>
    (fs.occupant? id).map fun occupant => (fs.path id, occupant)

def index (fs : FileSystem) : Index := fun path =>
  fs.census.lookup path

variable {fs before after : FileSystem}

theorem mem_census {path : Path} {occupant : Occupant} :
    (path, occupant) ∈ fs.census ↔
      fs.isLive occupant.node = true ∧ fs.path occupant.node = path ∧
        fs.occupant? occupant.node = some occupant := by
  simp only [census, List.mem_filterMap, List.mem_filter, List.mem_range, Option.map_eq_some_iff,
    Prod.mk.injEq]
  constructor
  · rintro ⟨id, ⟨_, alive⟩, found, held, spelled, rfl⟩
    have own := node_of_occupant? held
    rw [own]
    exact ⟨alive, spelled, held⟩
  · rintro ⟨alive, spelled, held⟩
    exact ⟨occupant.node, ⟨lt_length_of_isLive alive, alive⟩, occupant, held, spelled, rfl⟩

namespace Tree

variable (tree : Tree fs)

include tree

theorem eq_of_path {left right : NodeId} (leftLive : fs.isLive left = true)
    (rightLive : fs.isLive right = true) (same : fs.path left = fs.path right) : left = right := by
  have found := tree.find?_path leftLive
  rw [same, tree.find?_path rightLive] at found
  exact (Option.some.inj found).symm

/-- The map holds each live node at its path, and nothing else. -/
theorem index_eq_some {path : Path} {occupant : Occupant} :
    fs.index path = some occupant ↔
      fs.isLive occupant.node = true ∧ fs.path occupant.node = path ∧
        fs.occupant? occupant.node = some occupant := by
  rw [← mem_census]
  constructor
  · intro found
    obtain ⟨front, rest, split, _⟩ := List.lookup_eq_some_iff.mp found
    rw [split]
    exact List.mem_append_right _ List.mem_cons_self
  · intro present
    cases found : fs.index path with
    | none => simpa using List.lookup_eq_none_iff.mp found _ present
    | some other =>
      obtain ⟨front, rest, split, _⟩ := List.lookup_eq_some_iff.mp found
      have known : (path, other) ∈ fs.census := by
        rw [split]
        exact List.mem_append_right _ List.mem_cons_self
      obtain ⟨alive, spelled, held⟩ := mem_census.mp present
      obtain ⟨alive', spelled', held'⟩ := mem_census.mp known
      rw [tree.eq_of_path alive' alive (spelled'.trans spelled.symm), held] at held'
      exact held'.symm

/-- A map that holds each live node at its path, and nothing else, is that of the file system. -/
theorem index_eq {index : Index}
    (same : ∀ path occupant, index path = some occupant ↔
      fs.isLive occupant.node = true ∧ fs.path occupant.node = path ∧
        fs.occupant? occupant.node = some occupant) : fs.index = index := by
  funext path
  exact Option.ext fun occupant => tree.index_eq_some.trans (same path occupant).symm

theorem exists_occupant {id : NodeId} (alive : fs.isLive id = true) :
    ∃ occupant, fs.occupant? id = some occupant ∧ occupant.node = id ∧
      fs.index (fs.path id) = some occupant := by
  obtain ⟨occupant, held⟩ :=
    Option.isSome_iff_exists.mp (occupant?_isSome.mpr (lt_length_of_isLive alive))
  have own := node_of_occupant? held
  exact ⟨occupant, held, own, tree.index_eq_some.mpr (by rw [own]; exact ⟨alive, rfl, held⟩)⟩

/-- Finding a node is looking its path up in the map. -/
theorem find?_eq_index (path : Path) : fs.find? path = (fs.index path).map Occupant.node := by
  refine Option.ext fun id => ?_
  rw [Option.map_eq_some_iff]
  constructor
  · intro found
    obtain ⟨alive, rfl⟩ := tree.find?_eq_some found
    obtain ⟨occupant, _, own, shown⟩ := tree.exists_occupant alive
    exact ⟨occupant, shown, own⟩
  · rintro ⟨occupant, shown, rfl⟩
    obtain ⟨alive, rfl, _⟩ := tree.index_eq_some.mp shown
    exact tree.find?_path alive

/-- What a directory lists under a name is what is at the path of this name below it. -/
theorem index_push {id : NodeId} (alive : fs.isLive id = true) (name : Name) :
    (fs.index ((fs.path id).push name)).map Occupant.node = fs.child? id name := by
  have here : fs.descend? rootId (fs.names id) = some id := tree.find?_path alive
  rw [← tree.find?_eq_index, find?, Path.push, path, descend?_append, here]
  simp [descend?]

theorem index_push_eq_none {id : NodeId} (alive : fs.isLive id = true) {name : Name} :
    fs.index ((fs.path id).push name) = none ↔ fs.child? id name = none := by
  rw [← tree.index_push alive, Option.map_eq_none_iff]

/-- What a node holds has a path that starts with that of the node. -/
theorem prefix_of_isAncestor {ancestor id : NodeId} (above : fs.isAncestor ancestor id = true) :
    fs.names ancestor <+: fs.names id := by
  induction id using Nat.strongRecOn with
  | ind id ih =>
    rcases isAncestor_iff.mp above with rfl | ⟨parent, held, less, above⟩
    · exact List.prefix_refl _
    · obtain ⟨name, placed⟩ := parent?_eq_some.mp held
      rw [tree.names_child placed]
      exact (ih parent less above).trans (List.prefix_append _ _)

/-- Among live nodes, only what a node holds has a path that starts with that of the node. -/
theorem isAncestor_iff_prefix {ancestor id : NodeId} (above : fs.isLive ancestor = true)
    (alive : fs.isLive id = true) :
    fs.isAncestor ancestor id = true ↔ fs.names ancestor <+: fs.names id := by
  refine ⟨tree.prefix_of_isAncestor, fun start => ?_⟩
  obtain ⟨rest, whole⟩ := start
  have fromRoot : fs.descend? rootId (fs.names id) = some id := tree.find?_path alive
  have toAncestor : fs.descend? rootId (fs.names ancestor) = some ancestor := tree.find?_path above
  rw [← whole, descend?_append, toAncestor, Option.bind_some] at fromRoot
  exact tree.isAncestor_of_descend? fromRoot

end Tree

/-- A change that is seen in one node alone, and not in its name. -/
theorem index_revised (earlier : Tree before) (later : Tree after) {id : NodeId}
    {change : Occupant → Occupant} (alike : Alike before after)
    (own : ∀ occupant, (change occupant).node = occupant.node)
    (revised : ∀ other, after.occupant? other = (before.occupant? other).map (·.revise id change)) :
    after.index = before.index.revise id change := by
  have keeps : ∀ occupant : Occupant, (occupant.revise id change).node = occupant.node := by
    intro occupant
    unfold Occupant.revise
    split
    · exact own occupant
    · rfl
  have path : ∀ other, after.path other = before.path other := fun _ => path_congr alike.place
  refine later.index_eq fun other occupant => ?_
  simp only [Index.revise, Option.map_eq_some_iff, earlier.index_eq_some, revised, alike.live, path]
  constructor
  · rintro ⟨former, ⟨alive, spelled, held⟩, rfl⟩
    rw [keeps]
    exact ⟨alive, spelled, former, held, rfl⟩
  · rintro ⟨alive, spelled, former, held, rfl⟩
    rw [keeps] at alive spelled held
    exact ⟨former, ⟨alive, spelled, held⟩, rfl⟩

/-- A change that is not seen at all. -/
theorem index_congr (earlier : Tree before) (later : Tree after)
    (place : ∀ id, after.place? id = before.place? id)
    (live : ∀ id, after.isLive id = before.isLive id)
    (same : ∀ id, after.occupant? id = before.occupant? id) : after.index = before.index := by
  have path : ∀ other, after.path other = before.path other := fun _ => path_congr place
  refine later.index_eq fun other occupant => ?_
  rw [earlier.index_eq_some, live, path, same]

theorem Deleted.index {id parent : NodeId} (deleted : Deleted id parent before after)
    (earlier : Tree before) (later : Tree after) (alive : before.isLive id = true)
    (same : ∀ other, after.occupant? other = before.occupant? other) :
    after.index = before.index.without (before.path id) := by
  have path : ∀ other, after.path other = before.path other := fun _ => path_congr deleted.place
  refine later.index_eq fun other occupant => ?_
  rw [deleted.live, path, same, Index.without]
  constructor
  · intro kept
    split at kept
    · cases kept
    · next apart =>
      obtain ⟨live, rfl, held⟩ := earlier.index_eq_some.mp kept
      refine ⟨⟨live, ?_⟩, rfl, held⟩
      cases below : before.isAncestor id occupant.node with
      | false => rfl
      | true => exact absurd ((earlier.isAncestor_iff_prefix alive live).mp below) apart
  · rintro ⟨⟨live, apart⟩, rfl, held⟩
    have outside : ¬ (before.path id).names <+: (before.path occupant.node).names := by
      intro below
      rw [(earlier.isAncestor_iff_prefix alive live).mpr below] at apart
      cases apart
    rw [if_neg outside]
    exact earlier.index_eq_some.mpr ⟨live, rfl, held⟩

/-- A path that is given the name it has already stays as it is. -/
theorem renamed_same (path : Path) {around : List Name} (name : Name) :
    path.renamed ⟨around ++ [name]⟩ name = path := by
  unfold Path.renamed
  split
  · next below =>
    obtain ⟨rest, same⟩ := below
    obtain ⟨names⟩ := path
    simp only at same
    subst same
    simp
  · rfl

/-- The names of all nodes after one of them was renamed, from the top down: below it, they are
those of the parent with one more at the end. -/
theorem Renamed.names_eq {id parent : NodeId} {old name : Name}
    (renamed : Renamed id parent name before after) (earlier : Tree before) (later : Tree after)
    (placed : before.place? id = some ⟨parent, old⟩) (other : NodeId) :
    after.names other =
      if before.isAncestor id other = true then
        (before.names other).set ((before.names id).length - 1) name
      else before.names other := by
  have own : before.names id = before.names parent ++ [old] := earlier.names_child placed
  have less : parent < id := earlier.lt_of_parent (parent?_eq_some.mpr ⟨old, placed⟩)
  induction other using Nat.strongRecOn with
  | ind other ih =>
    by_cases same : other = id
    · subst same
      have apart : before.isAncestor other parent ≠ true := fun above => by
        have := le_of_isAncestor above
        lia
      have now : after.place? other = some ⟨parent, name⟩ := by rw [renamed.place, if_pos rfl]
      rw [later.names_child now, ih parent less, if_neg apart, if_pos (isAncestor_self other), own]
      simp
    · cases place : before.place? other with
      | none =>
        have top : before.parent? other = none := by simp [FileSystem.parent?, place]
        have apart : before.isAncestor id other ≠ true := by
          rw [isAncestor, if_neg (Ne.symm same), top]
          exact Bool.false_ne_true
        have now : after.place? other = none := by rw [renamed.place, if_neg same, place]
        rw [if_neg apart, names, names, now, place]
      | some here =>
        obtain ⟨holder, label⟩ := here
        have held : before.parent? other = some holder := parent?_eq_some.mpr ⟨label, place⟩
        have now : after.place? other = some ⟨holder, label⟩ := by
          rw [renamed.place, if_neg same, place]
        have passed : before.isAncestor id other = true ↔ before.isAncestor id holder = true := by
          rw [earlier.isAncestor_child held]
          simp [Ne.symm same]
        rw [later.names_child now, earlier.names_child place, ih holder (earlier.lt_of_parent held)]
        by_cases above : before.isAncestor id holder = true
        · have start := (earlier.prefix_of_isAncestor above).length_le
          have within : (before.names id).length - 1 < (before.names holder).length := by
            rw [own, List.length_append, List.length_singleton] at start ⊢
            omega
          rw [if_pos above, if_pos (passed.mpr above), List.set_append_left _ _ within]
        · rw [if_neg above, if_neg fun below => above (passed.mp below)]

/-- After a renaming, the path of a live node is renamed. -/
theorem Renamed.path_eq {id parent : NodeId} {old name : Name}
    (renamed : Renamed id parent name before after) (earlier : Tree before) (later : Tree after)
    (placed : before.place? id = some ⟨parent, old⟩) (alive : before.isLive id = true)
    {other : NodeId} (live : before.isLive other = true) :
    after.path other = (before.path other).renamed (before.path id) name := by
  rw [path, renamed.names_eq earlier later placed, Path.renamed]
  by_cases below : before.isAncestor id other = true
  · rw [if_pos below]
    exact (if_pos ((earlier.isAncestor_iff_prefix alive live).mp below)).symm
  · rw [if_neg below]
    exact (if_neg fun start => below ((earlier.isAncestor_iff_prefix alive live).mpr start)).symm

/-- A renaming moves what is at the path of the node and below it, and all keep what they hold. -/
theorem index_rename (earlier : Tree before) (later : Tree after) {id : NodeId}
    {requestor text : String} (renamed : before.rename id requestor text = .ok after) :
    ∃ name, Name.ofString text = .ok name ∧ ∀ path occupant, after.index path = some occupant ↔
      ∃ former, former.renamed (before.path id) name = path ∧
        before.index former = some occupant := by
  have held := occupant?_rename renamed
  obtain ⟨node, place, name, read, there, alive, placed, done⟩ := rename_cases renamed
  have live : before.isLive id = true := by simp [isLive, there, alive]
  have here : before.place? id = some ⟨place.parent, place.name⟩ := by simp [place?, there, placed]
  have moved : (∀ other, after.isLive other = before.isLive other) ∧
      ∀ other, before.isLive other = true →
        after.path other = (before.path other).renamed (before.path id) name := by
    rcases done with ⟨rfl, rfl⟩ | ⟨_, _, rfl⟩
    · refine ⟨fun _ => rfl, fun other _ => ?_⟩
      rw [path, path, earlier.names_child here, renamed_same]
    · have change : Renamed id place.parent name before _ :=
        .update there (.renamed requestor id place.name name) rfl
      exact ⟨change.live, fun other => change.path_eq earlier later here live⟩
  obtain ⟨lives, paths⟩ := moved
  refine ⟨name, read, fun path occupant => ?_⟩
  simp only [later.index_eq_some, earlier.index_eq_some, lives, held]
  constructor
  · rintro ⟨alive, rfl, known⟩
    exact ⟨_, (paths _ alive).symm, alive, rfl, known⟩
  · rintro ⟨_, rfl, alive, rfl, known⟩
    exact ⟨alive, paths _ alive, known⟩

end FileSystem

end Depot

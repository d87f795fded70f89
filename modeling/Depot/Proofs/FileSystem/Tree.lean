import Depot.FileSystem.Change

set_option autoImplicit false

/-
The tree of a file system is kept twice, in the places of the nodes and in the lists of the
directories. Here is what keeps the two in step, and how one file system may come after another.
-/

namespace Depot.FileSystem

def Event.created? : Event → Option NodeId
  | created node _ => some node
  | _ => none

/-- The nodes that were created, in the order in which the log tells of them. -/
def createdNodes (fs : FileSystem) : List NodeId :=
  fs.log.filterMap Event.created?

def file? (fs : FileSystem) (id : NodeId) : Option (Bytes × Stamp) :=
  (fs.node? id).bind fun node =>
    match node.content with
    | .file bytes => some (bytes, node.stamp)
    | .directory _ => none

/-- The places and the lists agree. A deleted directory may go on listing what it held, all of which
is deleted too. -/
structure Tree (fs : FileSystem) : Prop where
  rootLive : fs.isLive rootId = true
  rootDirectory : fs.isDirectory rootId = true
  rootUnplaced : fs.place? rootId = none
  placed : ∀ id, id < fs.nodes.length → id ≠ rootId →
    ∃ place, fs.place? id = some place ∧ place.parent < id
  listed : ∀ id child, child ∈ fs.children id →
    fs.parent? child = some id ∧ fs.isLive child = fs.isLive id
  held : ∀ id parent, fs.isLive id = true → fs.parent? id = some parent →
    fs.isLive parent = true ∧ id ∈ fs.children parent
  ascending : ∀ id, (fs.children id).Pairwise (· < ·)
  distinct : ∀ id left right name, fs.isLive id = true →
    left ∈ fs.children id → right ∈ fs.children id →
    fs.place? left = some ⟨id, name⟩ → fs.place? right = some ⟨id, name⟩ → left = right
  numbered : fs.createdNodes = List.range' 1 (fs.nodes.length - 1)

/-- One file system comes after another, and between them at most the given nodes were created,
deleted or renamed or had their contents replaced. -/
structure Follows (touched : List NodeId) (before after : FileSystem) : Prop where
  grows : before.nodes.length ≤ after.nodes.length
  created : ∀ id, before.nodes.length ≤ id → id < after.nodes.length → id ∈ touched
  parent : ∀ id, id < before.nodes.length → after.parent? id = before.parent? id
  kind : ∀ id, id < before.nodes.length → after.isDirectory id = before.isDirectory id
  place : ∀ id, id < before.nodes.length → id ∉ touched → after.place? id = before.place? id
  file : ∀ id, id < before.nodes.length → id ∉ touched → after.file? id = before.file? id
  live : ∀ id, id < before.nodes.length → after.isLive id = true → before.isLive id = true
  killed : ∀ id, before.isLive id = true → after.isLive id = false →
    ∃ cause ∈ touched, after.isAncestor cause id = true

/-- The nodes that a later file system has and an earlier one has not. -/
def added (before after : FileSystem) : List NodeId :=
  List.range' before.nodes.length (after.nodes.length - before.nodes.length)

variable {fs before after : FileSystem}

theorem mem_added {id : NodeId} :
    id ∈ added before after ↔ before.nodes.length ≤ id ∧ id < after.nodes.length := by
  simp only [added, List.mem_range'_1]
  lia

theorem node?_eq_none {id : NodeId} (beyond : fs.nodes.length ≤ id) : fs.node? id = none :=
  List.getElem?_eq_none beyond

theorem place?_eq_none {id : NodeId} (beyond : fs.nodes.length ≤ id) : fs.place? id = none := by
  simp [place?, node?_eq_none beyond]

theorem isLive_eq_false {id : NodeId} (beyond : fs.nodes.length ≤ id) : fs.isLive id = false := by
  simp [isLive, node?_eq_none beyond]

theorem lt_length_of_isLive {id : NodeId} (alive : fs.isLive id = true) : id < fs.nodes.length := by
  by_cases inside : id < fs.nodes.length
  · exact inside
  · rw [isLive_eq_false (by lia)] at alive
    cases alive

theorem lt_length_of_place {id : NodeId} {place : Place} (placed : fs.place? id = some place) :
    id < fs.nodes.length := by
  by_cases inside : id < fs.nodes.length
  · exact inside
  · rw [place?_eq_none (by lia)] at placed
    cases placed

theorem parent?_eq_some {id parent : NodeId} :
    fs.parent? id = some parent ↔ ∃ name, fs.place? id = some ⟨parent, name⟩ := by
  unfold parent?
  constructor
  · intro held
    obtain ⟨place, placed, rfl⟩ := Option.map_eq_some_iff.mp held
    exact ⟨place.name, placed⟩
  · rintro ⟨name, placed⟩
    simp [placed]

theorem parent?_congr {id : NodeId} (same : after.place? id = before.place? id) :
    after.parent? id = before.parent? id := by
  simp only [parent?, same]

theorem liveNode_eq_ok {id : NodeId} {node : Node} :
    fs.liveNode id = .ok node ↔ fs.node? id = some node ∧ node.live = true := by
  unfold liveNode
  cases found : fs.node? id with
  | none => simp
  | some other =>
    cases alive : other.live <;> simp [alive] <;> rintro rfl <;> simp_all

theorem isLive_of_liveNode {id : NodeId} {node : Node} (alive : fs.liveNode id = .ok node) :
    fs.isLive id = true := by
  obtain ⟨found, live⟩ := liveNode_eq_ok.mp alive
  simp [isLive, found, live]

theorem isDirectory_of_children {id child : NodeId} (listed : child ∈ fs.children id) :
    fs.isDirectory id = true := by
  unfold children at listed
  unfold isDirectory
  split at listed
  · next found => simp [found]
  · cases listed

theorem isAncestor_iff {ancestor id : NodeId} :
    fs.isAncestor ancestor id = true ↔
      ancestor = id ∨
        ∃ parent, fs.parent? id = some parent ∧ parent < id ∧
          fs.isAncestor ancestor parent = true := by
  rw [isAncestor]
  by_cases same : ancestor = id
  · simp [same]
  · rw [if_neg same]
    cases held : fs.parent? id with
    | none => simp [same]
    | some parent => simp [same]

@[simp]
theorem isAncestor_self (id : NodeId) : fs.isAncestor id id = true :=
  isAncestor_iff.mpr (.inl rfl)

theorem le_of_isAncestor {ancestor id : NodeId} (above : fs.isAncestor ancestor id = true) :
    ancestor ≤ id := by
  induction id using Nat.strongRecOn with
  | ind id ih =>
    rcases isAncestor_iff.mp above with rfl | ⟨parent, _, less, above⟩
    · exact Nat.le_refl _
    · have := ih parent less above
      lia

theorem isAncestor_trans {first second third : NodeId} (upper : fs.isAncestor first second = true)
    (lower : fs.isAncestor second third = true) : fs.isAncestor first third = true := by
  induction third using Nat.strongRecOn with
  | ind third ih =>
    rcases isAncestor_iff.mp lower with rfl | ⟨parent, held, less, lower⟩
    · exact upper
    · exact isAncestor_iff.mpr (.inr ⟨parent, held, less, ih parent less lower⟩)

/-- Only the parents of earlier nodes matter. -/
theorem isAncestor_congr {ancestor id : NodeId}
    (same : ∀ other, other ≤ id → after.parent? other = before.parent? other) :
    after.isAncestor ancestor id = before.isAncestor ancestor id := by
  induction id using Nat.strongRecOn with
  | ind id ih =>
    rw [Bool.eq_iff_iff, isAncestor_iff, isAncestor_iff, same id (Nat.le_refl _)]
    have upward : ∀ parent, parent < id →
        after.isAncestor ancestor parent = before.isAncestor ancestor parent :=
      fun parent less => ih parent less fun other below => same other (by lia)
    constructor
    · rintro (rfl | ⟨parent, held, less, above⟩)
      · exact .inl rfl
      · exact .inr ⟨parent, held, less, upward parent less ▸ above⟩
    · rintro (rfl | ⟨parent, held, less, above⟩)
      · exact .inl rfl
      · exact .inr ⟨parent, held, less, (upward parent less).symm ▸ above⟩

theorem isAncestor_root_iff {ancestor : NodeId} :
    fs.isAncestor ancestor rootId = true ↔ ancestor = rootId := by
  constructor
  · intro above
    exact Nat.le_zero.mp (le_of_isAncestor above)
  · rintro rfl
    simp

/-- Of two nodes that hold the same node, one holds the other. -/
theorem isAncestor_total {left right id : NodeId} (first : fs.isAncestor left id = true)
    (second : fs.isAncestor right id = true) :
    fs.isAncestor left right = true ∨ fs.isAncestor right left = true := by
  induction id using Nat.strongRecOn with
  | ind id ih =>
    rcases isAncestor_iff.mp first with rfl | ⟨parent, held, less, above⟩
    · exact .inr second
    · rcases isAncestor_iff.mp second with rfl | ⟨parent', held', _, above'⟩
      · exact .inl first
      · cases held.symm.trans held'
        exact ih parent less above above'

/-- Only the places of the nodes that hold a node matter for the way to it. -/
theorem names_of_holders {id : NodeId}
    (same : ∀ other, after.isAncestor other id = true → after.place? other = before.place? other) :
    after.names id = before.names id := by
  induction id using Nat.strongRecOn with
  | ind id ih =>
    rw [names, names, same id (isAncestor_self id)]
    cases placed : before.place? id with
    | none => rfl
    | some place =>
      by_cases less : place.parent < id
      · have held : after.parent? id = some place.parent :=
          parent?_eq_some.mpr ⟨place.name, (same id (isAncestor_self id)).trans placed⟩
        simp only [less, if_true]
        rw [ih place.parent less fun other above =>
          same other (isAncestor_iff.mpr (.inr ⟨place.parent, held, less, above⟩))]
      · simp only [less, if_false]

/-- Only the places of earlier nodes matter. -/
theorem names_congr {id : NodeId}
    (same : ∀ other, other ≤ id → after.place? other = before.place? other) :
    after.names id = before.names id :=
  names_of_holders fun other above => same other (le_of_isAncestor above)

theorem path_congr {id : NodeId} (same : ∀ other, after.place? other = before.place? other) :
    after.path id = before.path id := by
  rw [path, path, names_congr fun other _ => same other]

namespace Tree

variable (tree : Tree fs)

include tree in
theorem lt_of_parent {id parent : NodeId} (held : fs.parent? id = some parent) : parent < id := by
  obtain ⟨name, placed⟩ := parent?_eq_some.mp held
  have unequal : id ≠ rootId := by
    rintro rfl
    rw [tree.rootUnplaced] at placed
    cases placed
  obtain ⟨place, placed', less⟩ := tree.placed id (lt_length_of_place placed) unequal
  rw [placed] at placed'
  cases placed'
  exact less

include tree in
theorem exists_parent {id : NodeId} (inside : id < fs.nodes.length) (unequal : id ≠ rootId) :
    ∃ parent, fs.parent? id = some parent := by
  obtain ⟨place, placed, _⟩ := tree.placed id inside unequal
  exact ⟨place.parent, by simp [parent?, placed]⟩

include tree in
theorem isAncestor_child {ancestor child parent : NodeId} (held : fs.parent? child = some parent) :
    fs.isAncestor ancestor child = true ↔
      ancestor = child ∨ fs.isAncestor ancestor parent = true := by
  rw [isAncestor_iff]
  constructor
  · rintro (rfl | ⟨other, held', _, above⟩)
    · exact .inl rfl
    · rw [held] at held'
      cases held'
      exact .inr above
  · rintro (rfl | above)
    · exact .inl rfl
    · exact .inr ⟨parent, held, tree.lt_of_parent held, above⟩

end Tree

namespace Follows

theorem refl (fs : FileSystem) : Follows [] fs fs where
  grows := Nat.le_refl _
  created id beyond inside := by omega
  parent _ _ := rfl
  kind _ _ := rfl
  place _ _ _ := rfl
  file _ _ _ := rfl
  live _ _ alive := alive
  killed id alive dead := by simp [alive] at dead

theorem isAncestor {touched : List NodeId} (follows : Follows touched before after)
    {ancestor id : NodeId} (inside : id < before.nodes.length) :
    after.isAncestor ancestor id = before.isAncestor ancestor id :=
  isAncestor_congr fun other below => follows.parent other (by lia)

theorem trans {middle : FileSystem} {first second : List NodeId}
    (earlier : Follows first before middle) (later : Follows second middle after) :
    Follows (first ++ second) before after where
  grows := Nat.le_trans earlier.grows later.grows
  created id beyond inside := by
    by_cases early : id < middle.nodes.length
    · exact List.mem_append_left _ (earlier.created id beyond early)
    · exact List.mem_append_right _ (later.created id (by omega) inside)
  parent id inside := by
    have grows := earlier.grows
    rw [later.parent id (by omega), earlier.parent id inside]
  kind id inside := by
    have grows := earlier.grows
    rw [later.kind id (by omega), earlier.kind id inside]
  place id inside untouched := by
    have grows := earlier.grows
    simp only [List.mem_append, not_or] at untouched
    rw [later.place id (by omega) untouched.2, earlier.place id inside untouched.1]
  file id inside untouched := by
    have grows := earlier.grows
    simp only [List.mem_append, not_or] at untouched
    rw [later.file id (by omega) untouched.2, earlier.file id inside untouched.1]
  live id inside alive := by
    have grows := earlier.grows
    exact earlier.live id inside (later.live id (by omega) alive)
  killed id alive dead := by
    have inside := lt_length_of_isLive alive
    have grows := earlier.grows
    cases between : middle.isLive id with
    | true =>
      obtain ⟨cause, present, above⟩ := later.killed id between dead
      exact ⟨cause, List.mem_append_right _ present, above⟩
    | false =>
      obtain ⟨cause, present, above⟩ := earlier.killed id alive between
      refine ⟨cause, List.mem_append_left _ present, ?_⟩
      rw [later.isAncestor (by lia)]
      exact above

/-- Touching more nodes is no harm. -/
theorem mono {touched more : List NodeId} (follows : Follows touched before after)
    (subset : touched ⊆ more) : Follows more before after where
  grows := follows.grows
  created id beyond inside := subset (follows.created id beyond inside)
  parent := follows.parent
  kind := follows.kind
  place id inside untouched := follows.place id inside fun present => untouched (subset present)
  file id inside untouched := follows.file id inside fun present => untouched (subset present)
  live := follows.live
  killed id alive dead := by
    obtain ⟨cause, present, above⟩ := follows.killed id alive dead
    exact ⟨cause, subset present, above⟩

end Follows

end Depot.FileSystem

import Depot.Proofs.FileSystem.Tree

set_option autoImplicit false

namespace Depot.FileSystem

def Node.listing (node : Node) : List NodeId :=
  match node.content with
  | .directory children => children
  | .file _ => []

theorem children_eq (fs : FileSystem) (id : NodeId) :
    fs.children id = ((fs.node? id).map Node.listing).getD [] := by
  unfold children
  cases fs.node? id with
  | none => rfl
  | some node =>
    obtain ⟨place?, content, stamp, writable, live⟩ := node
    cases content <;> rfl

section Relist

variable (change : List NodeId → List NodeId) (node : Node)

@[simp]
theorem place?_relist : (node.relist change).place? = node.place? := by
  unfold Node.relist
  split <;> rfl

@[simp]
theorem live_relist : (node.relist change).live = node.live := by
  unfold Node.relist
  split <;> rfl

theorem isDirectory_relist :
    (∃ children, (node.relist change).content = .directory children) ↔
      ∃ children, node.content = .directory children := by
  unfold Node.relist
  split <;> simp_all

theorem listing_relist (directory : ∃ children, node.content = .directory children) :
    (node.relist change).listing = change node.listing := by
  obtain ⟨children, held⟩ := directory
  simp [Node.relist, Node.listing, held]

end Relist

variable (fs : FileSystem) (id : NodeId) (change : Node → Node)

@[simp]
theorem length_update : (fs.update id change).nodes.length = fs.nodes.length := by
  simp [update]

theorem node?_update (other : NodeId) :
    (fs.update id change).node? other =
      if other = id then (fs.node? other).map change else fs.node? other := by
  simp only [node?, update, List.getElem?_modify]
  by_cases same : id = other
  · simp [same]
  · have unequal : other ≠ id := fun equal => same equal.symm
    simp [same, unequal]

@[simp]
theorem createdNodes_update : (fs.update id change).createdNodes = fs.createdNodes := rfl

theorem createdNodes_note (event : Event) :
    (fs.note event).createdNodes = fs.createdNodes ++ event.created?.toList := by
  cases found : event.created? <;> simp [createdNodes, note, found]

/-- Other events tell of no new node. -/
theorem createdNodes_note_other {event : Event} (other : event.created? = none) :
    (fs.note event).createdNodes = fs.createdNodes := by
  simp [createdNodes_note, other]

section Note

variable (event : Event) (other : NodeId)

@[simp]
theorem nodes_note : (fs.note event).nodes = fs.nodes := rfl

@[simp]
theorem place?_note : (fs.note event).place? other = fs.place? other := rfl

@[simp]
theorem children_note : (fs.note event).children other = fs.children other := rfl

@[simp]
theorem isLive_note : (fs.note event).isLive other = fs.isLive other := rfl

@[simp]
theorem isDirectory_note : (fs.note event).isDirectory other = fs.isDirectory other := rfl

@[simp]
theorem file?_note : (fs.note event).file? other = fs.file? other := rfl

end Note

variable {fs id change}

theorem place?_update_of_ne {other : NodeId} (unequal : other ≠ id) :
    (fs.update id change).place? other = fs.place? other := by
  simp [place?, node?_update, unequal]

theorem place?_update (other : NodeId) (keeps : ∀ node, (change node).place? = node.place?) :
    (fs.update id change).place? other = fs.place? other := by
  simp only [place?, node?_update]
  split
  · cases fs.node? other <;> simp [keeps]
  · rfl

theorem isLive_update (other : NodeId) (keeps : ∀ node, (change node).live = node.live) :
    (fs.update id change).isLive other = fs.isLive other := by
  simp only [isLive, node?_update]
  split
  · cases fs.node? other <;> simp [keeps]
  · rfl

theorem children_update (other : NodeId)
    (keeps : ∀ node, (change node).listing = node.listing) :
    (fs.update id change).children other = fs.children other := by
  simp only [children_eq, node?_update]
  split
  · cases fs.node? other <;> simp [keeps]
  · rfl

theorem children_update_of_ne {other : NodeId} (unequal : other ≠ id) :
    (fs.update id change).children other = fs.children other := by
  simp [children_eq, node?_update, unequal]

theorem isDirectory_update (other : NodeId)
    (keeps : ∀ node, (∃ children, (change node).content = .directory children) ↔
      ∃ children, node.content = .directory children) :
    (fs.update id change).isDirectory other = fs.isDirectory other := by
  simp only [isDirectory, node?_update]
  split
  · cases fs.node? other with
    | none => rfl
    | some node =>
      have kinds := keeps node
      cases after : (change node).content <;> cases before : node.content <;> simp_all
  · rfl

theorem file?_update_of_ne {other : NodeId} (unequal : other ≠ id) :
    (fs.update id change).file? other = fs.file? other := by
  simp [file?, node?_update, unequal]

theorem file?_update (other : NodeId)
    (keeps : ∀ node, (change node).content = node.content ∧ (change node).stamp = node.stamp) :
    (fs.update id change).file? other = fs.file? other := by
  simp only [file?, node?_update]
  split
  · cases fs.node? other <;> simp [keeps]
  · rfl

theorem exists_of_isDirectory (directory : fs.isDirectory id = true) :
    ∃ node, fs.node? id = some node ∧ ∃ children, node.content = .directory children := by
  unfold isDirectory at directory
  cases found : fs.node? id with
  | none => simp [found] at directory
  | some node =>
    cases held : node.content with
    | file bytes => simp [found, held] at directory
    | directory children => exact ⟨node, rfl, children, held⟩

section Relisted

variable {lists : List NodeId → List NodeId} (other : NodeId)

@[simp]
theorem place?_relisted : (fs.update id (Node.relist lists)).place? other = fs.place? other :=
  place?_update other (place?_relist lists)

@[simp]
theorem isLive_relisted : (fs.update id (Node.relist lists)).isLive other = fs.isLive other :=
  isLive_update other (live_relist lists)

@[simp]
theorem isDirectory_relisted :
    (fs.update id (Node.relist lists)).isDirectory other = fs.isDirectory other :=
  isDirectory_update other (isDirectory_relist lists)

theorem children_relisted (directory : fs.isDirectory id = true) :
    (fs.update id (Node.relist lists)).children other =
      if other = id then lists (fs.children other) else fs.children other := by
  by_cases same : other = id
  · subst same
    obtain ⟨node, found, held⟩ := exists_of_isDirectory directory
    simp [children_eq, node?_update, found, listing_relist lists node held]
  · simp [same, children_update_of_ne same]

@[simp]
theorem file?_relisted : (fs.update id (Node.relist lists)).file? other = fs.file? other := by
  simp only [file?, node?_update]
  split
  · cases fs.node? other with
    | none => rfl
    | some node =>
      obtain ⟨place?, content, stamp, writable, live⟩ := node
      cases content <;> rfl
  · rfl

end Relisted

end Depot.FileSystem

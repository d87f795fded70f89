import Depot.Proofs.FileSystem.Update
import Depot.Proofs.Outcome

set_option autoImplicit false

namespace Depot.FileSystem

def Content.listing : Content → List NodeId
  | .directory children => children
  | .file _ => []

section Insert

variable (fs : FileSystem) (parent : NodeId) (name : Name) (content : Content)

@[simp]
theorem length_insert :
    (fs.insert parent name content).2.nodes.length = fs.nodes.length + 1 := by
  simp [insert]

theorem node?_insert (other : NodeId) :
    (fs.insert parent name content).2.node? other =
      if other = fs.nodes.length then
        some ⟨some ⟨parent, name⟩, content, fs.lastStamp + 1, true, true⟩
      else (fs.update parent (Node.relist (· ++ [fs.nodes.length]))).node? other := by
  have same : (fs.update parent (Node.relist (· ++ [fs.nodes.length]))).nodes.length =
      fs.nodes.length := length_update ..
  by_cases new : other = fs.nodes.length
  · simp [insert, node?, note, new, same]
  · simp only [insert, node?, note, new, if_false]
    by_cases early : other < fs.nodes.length
    · rw [List.getElem?_append_left (by lia)]
    · rw [List.getElem?_eq_none (by simp; lia), List.getElem?_eq_none (by lia)]

theorem place?_insert (other : NodeId) :
    (fs.insert parent name content).2.place? other =
      if other = fs.nodes.length then some ⟨parent, name⟩ else fs.place? other := by
  rw [place?, node?_insert]
  split
  · rfl
  · exact place?_relisted other

theorem isLive_insert (other : NodeId) :
    (fs.insert parent name content).2.isLive other =
      if other = fs.nodes.length then true else fs.isLive other := by
  rw [isLive, node?_insert]
  split
  · rfl
  · exact isLive_relisted other

theorem isDirectory_insert (other : NodeId) :
    (fs.insert parent name content).2.isDirectory other =
      if other = fs.nodes.length then content matches .directory _ else fs.isDirectory other := by
  rw [isDirectory, node?_insert]
  split
  · rfl
  · exact isDirectory_relisted other

theorem children_insert (directory : fs.isDirectory parent = true) (other : NodeId) :
    (fs.insert parent name content).2.children other =
      if other = fs.nodes.length then content.listing
      else if other = parent then fs.children other ++ [fs.nodes.length]
      else fs.children other := by
  rw [children_eq, node?_insert]
  split
  · cases content <;> rfl
  · rw [← children_eq, children_relisted other directory]

theorem file?_insert {other : NodeId} (early : other < fs.nodes.length) :
    (fs.insert parent name content).2.file? other = fs.file? other := by
  have old : other ≠ fs.nodes.length := by lia
  rw [file?, node?_insert, if_neg old]
  exact file?_relisted other

theorem createdNodes_insert :
    (fs.insert parent name content).2.createdNodes = fs.createdNodes ++ [fs.nodes.length] := by
  simp [insert, createdNodes, note, Event.created?, update]

end Insert

/-- The node that a directory lists under a name is one that has this name. -/
theorem child?_eq_some {fs : FileSystem} {id child : NodeId} {name : Name}
    (found : fs.child? id name = some child) :
    child ∈ fs.children id ∧ ∃ parent, fs.place? child = some ⟨parent, name⟩ := by
  unfold child? at found
  have named := List.find?_some found
  refine ⟨List.mem_of_find?_eq_some found, ?_⟩
  cases placed : fs.place? child with
  | none => simp [placed] at named
  | some place =>
    simp only [placed, Option.any_some, decide_eq_true_eq] at named
    exact ⟨place.parent, by rw [← named]⟩

theorem child?_eq_none {fs : FileSystem} {id child : NodeId} {name : Name} {parent : NodeId}
    (absent : fs.child? id name = none) (listed : child ∈ fs.children id) :
    fs.place? child ≠ some ⟨parent, name⟩ := by
  intro placed
  unfold child? at absent
  have unnamed := List.find?_eq_none.mp absent child listed
  simp [placed] at unnamed

/-- A node can be added to a live directory that has none of its name. -/
theorem Tree.insert {fs : FileSystem} (tree : Tree fs) {parent : NodeId} {name : Name}
    {content : Content} (alive : fs.isLive parent = true) (directory : fs.isDirectory parent = true)
    (absent : fs.child? parent name = none) (childless : content.listing = []) :
    Tree (fs.insert parent name content).2 := by
  have inside : parent < fs.nodes.length := lt_length_of_isLive alive
  have rooted : rootId < fs.nodes.length := lt_length_of_isLive tree.rootLive
  have rootOld : rootId ≠ fs.nodes.length := by lia
  have old : ∀ other child, child ∈ fs.children other → child < fs.nodes.length := by
    intro other child listed
    obtain ⟨name, placed⟩ := parent?_eq_some.mp (tree.listed other child listed).1
    exact lt_length_of_place placed
  refine ⟨?_, ?_, ?_, ?_, ?_, ?_, ?_, ?_, ?_⟩
  · simp [isLive_insert, tree.rootLive]
  · simp [isDirectory_insert, rootOld, tree.rootDirectory]
  · simp [place?_insert, rootOld, tree.rootUnplaced]
  · intro id below unequal
    simp only [length_insert] at below
    simp only [place?_insert]
    split
    · exact ⟨_, rfl, by simp only; lia⟩
    · exact tree.placed id (by lia) unequal
  · intro id child listed
    simp only [children_insert _ _ _ _ directory, childless] at listed
    simp only [parent?, place?_insert, isLive_insert]
    split at listed
    · cases listed
    · next idOld =>
      by_cases new : child = fs.nodes.length
      · split at listed
        · next same => simp [new, same, alive]
        · exact absurd (old id child listed) (by lia)
      · have before : child ∈ fs.children id := by
          split at listed
          · simpa [new] using listed
          · exact listed
        have kept := tree.listed id child before
        simpa [new, idOld, parent?] using kept
  · intro id holder live held
    simp only [isLive_insert] at live ⊢
    simp only [parent?, place?_insert] at held
    simp only [children_insert _ _ _ _ directory, childless]
    by_cases new : id = fs.nodes.length
    · simp only [new, if_true, Option.map_some, Option.some.injEq] at held
      subst held
      have holderOld : parent ≠ fs.nodes.length := by lia
      simp [new, alive, holderOld]
    · simp only [new, if_false] at live held
      obtain ⟨holderLive, listed⟩ := tree.held id holder live held
      have holderOld : holder ≠ fs.nodes.length := by
        have := lt_length_of_isLive holderLive
        lia
      simp only [holderOld, if_false, holderLive, true_and]
      split
      · exact List.mem_append_left _ listed
      · exact listed
  · intro id
    simp only [children_insert _ _ _ _ directory, childless]
    split
    · exact .nil
    · split
      · refine List.pairwise_append.mpr ⟨tree.ascending id, List.pairwise_singleton _ _, ?_⟩
        intro child listed last present
        rw [List.mem_singleton.mp present]
        exact old id child listed
      · exact tree.ascending id
  · intro id left right other live leftListed rightListed leftPlaced rightPlaced
    simp only [children_insert _ _ _ _ directory, childless] at leftListed rightListed
    simp only [isLive_insert] at live
    simp only [place?_insert] at leftPlaced rightPlaced
    have fresh : ∀ child, child ∈ fs.children parent → fs.place? child ≠ some ⟨parent, name⟩ :=
      fun child listed => child?_eq_none absent listed
    by_cases new : id = fs.nodes.length
    · simp [new] at leftListed
    · have distinct := tree.distinct id left right other
      grind
  · have positive : fs.nodes.length + 1 - 1 = (fs.nodes.length - 1) + 1 := by lia
    rw [createdNodes_insert, tree.numbered, length_insert, positive, List.range'_concat]
    congr 2
    omega

/-- Only the new node is touched. -/
theorem Follows.insert {fs : FileSystem} (parent : NodeId) (name : Name) (content : Content) :
    Follows [fs.nodes.length] fs (fs.insert parent name content).2 where
  grows := by simp
  created id beyond inside := by
    simp only [length_insert] at inside
    simp only [List.mem_singleton]
    omega
  parent id inside := by
    have old : id ≠ fs.nodes.length := by omega
    simp [parent?, place?_insert, old]
  kind id inside := by
    have old : id ≠ fs.nodes.length := by omega
    simp [isDirectory_insert, old]
  place id inside untouched := by
    have old : id ≠ fs.nodes.length := by omega
    simp [place?_insert, old]
  file id inside untouched := file?_insert fs parent name content inside
  live id inside alive := by
    have old : id ≠ fs.nodes.length := by omega
    simpa [isLive_insert, old] using alive
  killed id alive dead := by
    simp [isLive_insert, alive] at dead

/-- A change makes a tree of a tree, and touches at most the nodes that it adds. -/
structure Extends (before after : FileSystem) : Prop where
  tree : Tree after
  follows : Follows (added before after) before after

theorem Extends.refl {fs : FileSystem} (tree : Tree fs) : Extends fs fs where
  tree := tree
  follows := (Follows.refl fs).mono (List.nil_subset _)

theorem Extends.trans {before middle after : FileSystem} (first : Extends before middle)
    (second : Extends middle after) : Extends before after where
  tree := second.tree
  follows := by
    have early := first.follows.grows
    have late := second.follows.grows
    refine (first.follows.trans second.follows).mono fun id present => ?_
    rcases List.mem_append.mp present with present | present
    · have bounds := mem_added.mp present
      exact mem_added.mpr ⟨bounds.1, by lia⟩
    · have bounds := mem_added.mp present
      exact mem_added.mpr ⟨by omega, bounds.2⟩

theorem Extends.insert {fs : FileSystem} (tree : Tree fs) {parent : NodeId} {name : Name}
    {content : Content} (alive : fs.isLive parent = true) (directory : fs.isDirectory parent = true)
    (absent : fs.child? parent name = none) (childless : content.listing = []) :
    Extends fs (fs.insert parent name content).2 where
  tree := tree.insert alive directory absent childless
  follows := by
    refine (Follows.insert parent name content).mono fun id present => ?_
    rw [List.mem_singleton.mp present]
    exact mem_added.mpr ⟨Nat.le_refl _, by simp⟩

theorem Extends.makeDirectories {fs after : FileSystem} (tree : Tree fs) {id last : NodeId}
    {names : List Name} (alive : fs.isLive id = true) (directory : fs.isDirectory id = true)
    (made : fs.makeDirectories id names = .ok (last, after)) :
    Extends fs after ∧ after.isLive last = true ∧ after.isDirectory last = true := by
  induction names generalizing fs id with
  | nil =>
    cases made
    exact ⟨.refl tree, alive, directory⟩
  | cons name rest ih =>
    unfold FileSystem.makeDirectories at made
    split at made
    · next child found =>
      split at made
      · next kind =>
        obtain ⟨listed, _⟩ := child?_eq_some found
        exact ih tree ((tree.listed id child listed).2.trans alive) kind made
      · cases made
    · next absent =>
      have grown : Extends fs (fs.insert id name (.directory [])).2 :=
        .insert tree alive directory absent rfl
      obtain ⟨extended, facts⟩ := ih grown.tree (by simp [isLive_insert])
        (by simp [isDirectory_insert]) made
      exact ⟨grown.trans extended, facts⟩

theorem newPath_eq_ok {text : String} {path : Path} :
    newPath text = .ok path ↔ Path.ofString text = .ok path := by
  unfold newPath
  cases Path.ofString text with
  | ok found => simp
  | error fault => simp

theorem createDirectory_eq_ok {fs after : FileSystem} {id : NodeId} {text : String} :
    fs.createDirectory text = .ok (id, after) ↔
      ∃ path, Path.ofString text = .ok path ∧
        fs.makeDirectories rootId path.names = .ok (id, after) := by
  simp only [FileSystem.createDirectory, bind_ok_iff, newPath_eq_ok]

/-- A path consists of what is around its last name and that name. -/
theorem names_of_parent? {path parent : Path} {name : Name} (above : path.parent? = some parent)
    (last : path.name? = some name) : path.names = parent.names ++ [name] := by
  unfold Path.parent? at above
  split at above
  · cases above
  · next first rest names =>
    cases above
    rw [Path.name?, names] at last
    simpa [names] using (List.dropLast_append_getLast? name last).symm

/-- The directories around a new file are made first, and then the file, which must not be there. -/
theorem createFile_eq_ok {fs after : FileSystem} {id : NodeId} {text : String} {content : Bytes} :
    fs.createFile text content = .ok (id, after) ↔
      ∃ path around name directory middle, Path.ofString text = .ok path ∧
        path.names = around ++ [name] ∧
        fs.makeDirectories rootId around = .ok (directory, middle) ∧
        middle.child? directory name = none ∧
        middle.insert directory name (.file content) = (id, after) := by
  unfold FileSystem.createFile
  constructor
  · intro made
    obtain ⟨path, read, made⟩ := bind_ok_iff.mp made
    split at made
    · next parent name above last =>
      obtain ⟨⟨directory, middle⟩, placed, made⟩ := bind_ok_iff.mp made
      simp only at made
      split at made
      · cases made
      · next absent =>
        exact ⟨path, parent.names, name, directory, middle, newPath_eq_ok.mp read,
          names_of_parent? above last, placed, absent, Except.ok.inj made⟩
    · cases made
  · rintro ⟨path, around, name, directory, middle, read, names, placed, absent, inserted⟩
    refine bind_ok_iff.mpr ⟨path, newPath_eq_ok.mpr read, ?_⟩
    have above : path.parent? = some ⟨around⟩ := by
      unfold Path.parent?
      split
      · next none => simp [none] at names
      · next first rest some => rw [← some, names, List.dropLast_concat]
    have last : path.name? = some name := by
      rw [Path.name?, names, List.getLast?_concat]
    simp only [above, last]
    refine bind_ok_iff.mpr ⟨(directory, middle), placed, ?_⟩
    simp only [absent, inserted]
    rfl

theorem Extends.createDirectory {fs after : FileSystem} (tree : Tree fs) {id : NodeId}
    {text : String} (made : fs.createDirectory text = .ok (id, after)) : Extends fs after := by
  obtain ⟨path, _, made⟩ := createDirectory_eq_ok.mp made
  exact (Extends.makeDirectories tree tree.rootLive tree.rootDirectory made).1

theorem Extends.createFile {fs after : FileSystem} (tree : Tree fs) {id : NodeId} {text : String}
    {content : Bytes} (made : fs.createFile text content = .ok (id, after)) : Extends fs after := by
  obtain ⟨path, around, name, directory, middle, _, _, placed, absent, inserted⟩ :=
    createFile_eq_ok.mp made
  obtain ⟨extended, alive, kind⟩ :=
    Extends.makeDirectories tree tree.rootLive tree.rootDirectory placed
  have grown : Extends middle (middle.insert directory name (.file content)).2 :=
    .insert extended.tree alive kind absent rfl
  rw [inserted] at grown
  exact extended.trans grown

end Depot.FileSystem

import Depot.Proofs.Build.Complete
import Depot.Proofs.Build.Frame
import Depot.Proofs.Build.Layers
import Depot.Proofs.FileSystem.Lookup

set_option autoImplicit false

namespace Depot

open FileSystem (Tree)

namespace Workspace

variable {workspace : Workspace} {source : Source}

theorem exists_read (alive : workspace.isLive source = true)
    (file : workspace.isDirectory source = false) :
    ∃ content, workspace.read source = .ok content :=
  FileSystem.exists_read alive file

theorem isDirectory_of_read {content : Bytes} (read : workspace.read source = .ok content) :
    workspace.isDirectory source = false :=
  FileSystem.isDirectory_of_read read

/-- What a live directory lists is called differently. -/
theorem children_names (trees : workspace.Trees) (alive : workspace.isLive source = true) :
    (workspace.children source).Pairwise fun left right => workspace.name left ≠
      workspace.name right := by
  have tree : Tree (workspace.home source) := trees source.volume
  rw [children, List.pairwise_map]
  exact tree.names_distinct alive

theorem exists_name (trees : workspace.Trees) {child : Source}
    (listed : child ∈ workspace.children source) : ∃ name, workspace.name child = .ok name := by
  have tree : Tree (workspace.home source) := trees source.volume
  have held := (tree.listed source.node child.node (mem_children.mp listed).2).1
  obtain ⟨name, placed⟩ := FileSystem.parent?_eq_some.mp held
  exact ⟨name, by simp [Workspace.name, FileSystem.name, home_child listed, placed]⟩

/-- The nodes that have not been deleted and are directly in a directory, in the order in which they
were created. -/
def residents (workspace : Workspace) (source : Source) : List Source :=
  ((workspace.home source).residents source.node).map fun node => { source with node }

theorem children_eq_residents (trees : workspace.Trees) (alive : workspace.isLive source = true) :
    workspace.children source = workspace.residents source := by
  have tree : Tree (workspace.home source) := trees source.volume
  rw [children, tree.children_eq_residents alive, residents]

/-- A node has not been deleted, and the names on the way to it are those on the way to a source and
some more. -/
structure Beneath (workspace : Workspace) (source : Source) (names : List Name) (node : Source) :
    Prop where
  volume : node.volume = source.volume
  alive : workspace.isLive node = true
  path : (workspace.path node).names = (workspace.path source).names ++ names

theorem beneath_iff (trees : workspace.Trees) (alive : workspace.isLive source = true)
    {names : List Name} {node : Source} :
    workspace.Beneath source names node ↔
      node.volume = source.volume ∧
        (workspace.home source).descend? source.node names = some node.node := by
  have tree : Tree (workspace.home source) := trees source.volume
  rw [tree.descend?_iff alive]
  constructor
  · rintro ⟨volume, nodeLive, path⟩
    rw [isLive, home, volume] at nodeLive
    rw [Workspace.path, home, volume] at path
    exact ⟨volume, nodeLive, path⟩
  · rintro ⟨volume, nodeLive, path⟩
    refine ⟨volume, ?_, ?_⟩
    · rw [isLive, home, volume]
      exact nodeLive
    · rw [Workspace.path, home, volume]
      exact path

end Workspace

/-- Entries for some nodes: for each of them, in the same order, one of its kind, with its content
or with entries for all that it lists. -/
inductive Copies (workspace : Workspace) (hash : Hash) : List Source → List Entry → Prop where
  | nil : Copies workspace hash [] []
  | file {source : Source} {name : Name} {content : Bytes} {sources : List Source}
    {entries : List Entry} (named : workspace.name source = .ok name)
    (read : workspace.read source = .ok content) (rest : Copies workspace hash sources entries) :
    Copies workspace hash (source :: sources)
      (.ofFile hash name content (workspace.stamp source) :: entries)
  | directory {source : Source} {name : Name} {members : List Entry} {sources : List Source}
    {entries : List Entry} (named : workspace.name source = .ok name)
    (alive : workspace.isLive source = true) (directory : workspace.isDirectory source = true)
    (inner : Copies workspace hash (workspace.children source) members)
    (rest : Copies workspace hash sources entries) :
    Copies workspace hash (source :: sources) (.ofDirectory hash name members :: entries)

namespace Copies

variable {workspace : Workspace} {hash : Hash} {source : Source} {sources : List Source}
  {entries : List Entry}

theorem names (copies : Copies workspace hash sources entries) :
    entries.map (fun entry => Except.ok entry.name) = sources.map workspace.name := by
  induction copies with
  | nil => rfl
  | file named _ _ ih =>
    rw [List.map_cons, List.map_cons, ih, named]
    rfl
  | directory named _ _ _ _ _ ih =>
    rw [List.map_cons, List.map_cons, ih, named]
    rfl

/-- The entries are those of the single nodes. -/
theorem forall₂ (copies : Copies workspace hash sources entries) :
    List.Forall₂ (fun source entry => Copies workspace hash [source] [entry]) sources entries := by
  induction copies with
  | nil => exact .nil
  | file named read _ ih => exact .cons (.file named read .nil) ih
  | directory named alive directory inner _ _ ih =>
    exact .cons (.directory named alive directory inner .nil) ih

theorem names_nodup (trees : workspace.Trees) (alive : workspace.isLive source = true)
    (copies : Copies workspace hash (workspace.children source) entries) :
    (entries.map Entry.name).Nodup := by
  have distinct := Workspace.children_names trees alive
  rw [← List.pairwise_map (f := workspace.name), ← copies.names, List.pairwise_map] at distinct
  rw [List.Nodup, List.pairwise_map]
  exact distinct.imp fun apart same => apart (congrArg Except.ok same)

theorem closed (trees : workspace.Trees) (copies : Copies workspace hash sources entries) :
    ∀ entry ∈ entries, Entry.Sealed hash entry := by
  induction copies with
  | nil => simp
  | file _ _ _ ih => exact List.forall_mem_cons.mpr ⟨.file .., ih⟩
  | directory _ alive _ inner _ ihInner ih =>
    exact List.forall_mem_cons.mpr ⟨.directory (inner.names_nodup trees alive) ihInner, ih⟩

/-- Live nodes can be copied, by induction on how many nodes are younger than the directory. -/
theorem exist (trees : workspace.Trees) (hash : Hash) (alive : workspace.isLive source = true) :
    ∃ entries, Copies workspace hash (workspace.children source) entries := by
  induction younger : (workspace.home source).nodes.length - source.node using Nat.strongRecOn
    generalizing source with
  | ind younger' ih =>
    subst younger
    have each : ∀ sources ⊆ workspace.children source, ∃ entries,
        Copies workspace hash sources entries := by
      intro sources
      induction sources with
      | nil => exact fun _ => ⟨[], .nil⟩
      | cons child rest ihRest =>
        intro listed
        obtain ⟨here, later⟩ := List.cons_subset.mp listed
        obtain ⟨entries, copied⟩ := ihRest later
        obtain ⟨name, named⟩ := Workspace.exists_name trees here
        have childLive : workspace.isLive child = true :=
          (Workspace.isLive_child trees here).trans alive
        cases kind : workspace.isDirectory child with
        | false =>
          obtain ⟨content, read⟩ := Workspace.exists_read childLive kind
          exact ⟨_, .file named read copied⟩
        | true =>
          have above := Workspace.node_lt_child trees here
          have inside := FileSystem.lt_length_of_isLive childLive
          rw [Workspace.home_child here] at inside
          obtain ⟨members, inner⟩ := ih _ (by rw [Workspace.home_child here]; lia) childLive rfl
          exact ⟨_, .directory named childLive kind inner copied⟩
    exact each _ (List.Subset.refl _)

theorem single_name {entry : Entry} (single : Copies workspace hash [source] [entry]) :
    workspace.name source = .ok entry.name := by
  have same := single.names
  rw [List.map_singleton, List.map_singleton] at same
  exact (List.singleton_inj.mp same).symm

/-- The entry of a name is that of the node of this name. -/
theorem named? (copies : Copies workspace hash (workspace.children source) entries) (name : Name) :
    Option.Rel (fun node entry => Copies workspace hash [{ source with node }] [entry])
      ((workspace.home source).child? source.node name) (Entry.named? entries name) := by
  have each := copies.forall₂
  rw [Workspace.children, List.forall₂_map_left_iff] at each
  refine rel_find? each fun node entry single => ?_
  have named : (workspace.home source).name node = .ok entry.name := single.single_name
  cases placed : (workspace.home source).place? node with
  | none => simp [FileSystem.name, placed] at named
  | some place =>
    have same : place.name = entry.name := by simpa [FileSystem.name, placed] using named
    rw [Option.any_some, same]

/-- The entry at a path is that of the node at this path, by induction on the path. -/
theorem find? {names : List Name} (below : names ≠ []) :
    ∀ {source : Source} {entries : List Entry},
      Copies workspace hash (workspace.children source) entries →
      Option.Rel (fun node entry => Copies workspace hash [{ source with node }] [entry])
        ((workspace.home source).descend? source.node names) (Hierarchy.find? entries ⟨names⟩) := by
  induction names with
  | nil => exact absurd rfl below
  | cons name rest ih =>
    intro source entries copies
    cases rest with
    | nil =>
      have here := copies.named? name
      rw [Entry.find?_single, FileSystem.descend?]
      simpa [FileSystem.descend?] using here
    | cons next rest =>
      rw [Entry.find?_cons, FileSystem.descend?]
      refine rel_bind (copies.named? name) fun node entry single => ?_
      cases single with
      | file _ read _ =>
        -- A file holds nothing, neither as a node nor as an entry.
        have childless : (workspace.home source).child? node next = none :=
          FileSystem.child?_of_file (Workspace.isDirectory_of_read read) next
        rw [FileSystem.descend?, childless]
        exact .none
      | directory _ _ _ inner _ => exact ih (List.cons_ne_nil _ _) inner

end Copies

/-- An entry of the kind of a node: a file with its content, or a directory whose entries are called
like the nodes in it, in the order in which these were created. -/
inductive Image (workspace : Workspace) (hash : Hash) (source : Source) : Entry → Prop where
  | file {name : Name} {content : Bytes} (named : workspace.name source = .ok name)
    (read : workspace.read source = .ok content) :
    Image workspace hash source (.ofFile hash name content (workspace.stamp source))
  | directory {name : Name} {members : List Entry} (named : workspace.name source = .ok name)
    (directory : workspace.isDirectory source = true)
    (order : members.map (fun entry => Except.ok entry.name) =
      (workspace.residents source).map workspace.name) :
    Image workspace hash source (.ofDirectory hash name members)

/-- Entries have at each path the image of the node that has this path in a directory, and nothing
else. -/
structure Mirrors (workspace : Workspace) (hash : Hash) (source : Source) (entries : List Entry) :
    Prop where
  order : entries.map (fun entry => Except.ok entry.name) =
    (workspace.residents source).map workspace.name
  mirrored : ∀ names node, names ≠ [] → workspace.Beneath source names node →
    ∃ entry, Hierarchy.find? entries ⟨names⟩ = some entry ∧ Image workspace hash node entry
  only : ∀ names entry, Hierarchy.find? entries ⟨names⟩ = some entry →
    ∃ node, workspace.Beneath source names node ∧ Image workspace hash node entry

namespace Copies

variable {workspace : Workspace} {hash : Hash} {source : Source} {entries : List Entry}

theorem image (trees : workspace.Trees) {entry : Entry}
    (single : Copies workspace hash [source] [entry]) : Image workspace hash source entry := by
  cases single with
  | file named read _ => exact .file named read
  | directory named alive directory inner _ =>
    exact .directory named directory (Workspace.children_eq_residents trees alive ▸ inner.names)

theorem mirrors (trees : workspace.Trees) (alive : workspace.isLive source = true)
    (copies : Copies workspace hash (workspace.children source) entries) :
    Mirrors workspace hash source entries where
  order := Workspace.children_eq_residents trees alive ▸ copies.names
  mirrored names node below beneath := by
    obtain ⟨volume, found⟩ := (Workspace.beneath_iff trees alive).mp beneath
    have related := copies.find? below
    rw [found] at related
    cases held : Hierarchy.find? entries ⟨names⟩ with
    | none =>
      rw [held] at related
      cases related
    | some entry =>
      rw [held] at related
      cases related with
      | some single =>
        rw [← volume] at single
        exact ⟨entry, rfl, single.image trees⟩
  only names entry held := by
    have below : names ≠ [] := by
      rintro rfl
      cases held
    have related := copies.find? below
    rw [held] at related
    cases found : (workspace.home source).descend? source.node names with
    | none =>
      rw [found] at related
      cases related
    | some node =>
      rw [found] at related
      cases related with
      | some single =>
        exact ⟨{ source with node }, (Workspace.beneath_iff trees alive).mpr ⟨rfl, found⟩,
          single.image trees⟩

end Copies

namespace Assembler

variable {assembler : Assembler}

/-- The slot of a node in a copied directory is built to the entry of the node, if that holds of the
slots inside a directory. -/
theorem copies_of_childSlot {depth : Nat} {path : Path} {child : Source} {name : Name}
    {entry : Entry} (named : assembler.workspace.name child = .ok name)
    (inner : ∀ slots members, assembler.resolver.copy depth (path.push name) child = .ok slots →
      List.Forall₂ (fun slot entry => assembler.complete? slot = some entry) slots members →
      assembler.workspace.isLive child = true ∧
        Copies assembler.workspace assembler.hash (assembler.workspace.children child) members)
    (complete : assembler.complete? (assembler.resolver.childSlot depth path child name) =
      some entry) :
    Copies assembler.workspace assembler.hash [child] [entry] := by
  rcases Resolver.childSlot_cases (resolved_of_complete complete) with
    ⟨_, same⟩ | ⟨directory, slots, same, copied, _, _⟩
  · rw [same, complete?] at complete
    cases read : assembler.workspace.read child with
    | error fault =>
      rw [read] at complete
      cases complete
    | ok content =>
      rw [read] at complete
      cases complete
      exact .file named read .nil
  · rw [same] at complete
    obtain ⟨members, each, enclosed⟩ := complete?_container.mp complete
    obtain ⟨alive, copies⟩ := inner slots members copied each
    cases enclosed
    exact .directory named alive directory copies .nil

theorem copies_of_forall₂ {sources : List Source} {entries : List Entry}
    (each : List.Forall₂ (fun source entry =>
      Copies assembler.workspace assembler.hash [source] [entry]) sources entries) :
    Copies assembler.workspace assembler.hash sources entries := by
  induction each with
  | nil => exact .nil
  | cons single _ ih =>
    cases single with
    | file named read _ => exact .file named read ih
    | directory named alive directory inner _ => exact .directory named alive directory inner ih

/-- What the slots of a copy are built to, by induction on the depth, which is never used up. -/
theorem copies_of_copy (trees : assembler.workspace.Trees) {depth : Nat} :
    ∀ {path : Path} {source : Source} {slots : List Slot} {entries : List Entry},
      (assembler.workspace.home source).nodes.length < depth + 1 + source.node →
      assembler.resolver.copy (depth + 1) path source = .ok slots →
      List.Forall₂ (fun slot entry => assembler.complete? slot = some entry) slots entries →
      assembler.workspace.isLive source = true ∧ assembler.workspace.isDirectory source = true ∧
        Copies assembler.workspace assembler.hash (assembler.workspace.children source)
          entries := by
  induction depth with
  | zero =>
    intro path source slots entries deep copied _
    have inside : source.node < (assembler.workspace.home source).nodes.length :=
      FileSystem.lt_length_of_isLive (Resolver.copy_eq_ok.mp copied).1
    lia
  | succ depth ih =>
    intro path source slots entries deep copied complete
    obtain ⟨alive, directory, each⟩ := Resolver.copy_eq_ok.mp copied
    refine ⟨alive, directory, copies_of_forall₂ ?_⟩
    have listed : ∀ child ∈ assembler.workspace.children source,
        child ∈ assembler.workspace.children source := fun _ present => present
    refine ((List.forall₂_and_left _ _).mpr ⟨listed, forall₂_comp each complete⟩).imp ?_
    intro child entry ⟨here, slot, ⟨name, named, same⟩, built⟩
    rw [same] at built
    refine copies_of_childSlot named (fun slots members copied each => ?_) built
    have above := Workspace.node_lt_child trees here
    obtain ⟨childLive, _, copies⟩ :=
      ih (by rw [Workspace.home_child here]; lia) copied each
    exact ⟨childLive, copies⟩

theorem copy_of_copies (trees : assembler.workspace.Trees) {sources : List Source}
    {entries : List Entry} (copies : Copies assembler.workspace assembler.hash sources entries) :
    ∀ (depth : Nat) (path : Path), (∀ source ∈ sources,
        (assembler.workspace.home source).nodes.length < depth + source.node) →
      ∃ slots, List.Forall₂ (fun child slot => ∃ name, assembler.workspace.name child = .ok name ∧
          slot = assembler.resolver.childSlot depth path child name) sources slots ∧
        List.Forall₂ (fun slot entry => assembler.complete? slot = some entry) slots entries := by
  induction copies with
  | nil => exact fun _ _ _ => ⟨[], .nil, .nil⟩
  | @file source name content sources entries named read _ ih =>
    intro depth path deep
    obtain ⟨slots, each, complete⟩ := ih depth path fun other present =>
      deep other (List.mem_cons_of_mem _ present)
    have kind := Workspace.isDirectory_of_read read
    refine ⟨_, .cons ⟨name, named, rfl⟩ each, .cons ?_ complete⟩
    have slot : assembler.resolver.childSlot depth path source name = .file name source := by
      exact if_neg (Bool.not_eq_true _ ▸ kind)
    rw [slot, complete?, read]
  | @directory source name members sources entries named alive directory inner _ ihInner ih =>
    intro depth path deep
    obtain ⟨slots, each, complete⟩ := ih depth path fun other present =>
      deep other (List.mem_cons_of_mem _ present)
    have inside := FileSystem.lt_length_of_isLive alive
    have here := deep source List.mem_cons_self
    obtain ⟨depth, rfl⟩ : ∃ less, depth = less + 1 := ⟨depth - 1, by lia⟩
    obtain ⟨innerSlots, innerEach, innerComplete⟩ :=
      ihInner depth (path.push name) fun child listed => by
        have above := Workspace.node_lt_child trees listed
        rw [Workspace.home_child listed]
        lia
    refine ⟨_, .cons ⟨name, named, rfl⟩ each, .cons ?_ complete⟩
    have copied : assembler.resolver.copy (depth + 1) (path.push name) source = .ok innerSlots :=
      Resolver.copy_eq_ok.mpr ⟨alive, directory, innerEach⟩
    have names := map_eq_of_forall₂ innerComplete fun _ _ built => name_complete? built
    have distinct : (innerSlots.map Slot.name).Nodup := names ▸ inner.names_nodup trees alive
    have slot : assembler.resolver.childSlot (depth + 1) path source name =
        .container .directory name [.copy source] (.ok innerSlots) := by
      rw [Resolver.childSlot, Resolver.distinct_eq_ok.mpr ⟨copied, distinct⟩]
      exact if_pos directory
    rw [slot]
    exact complete?_container.mpr ⟨members, innerComplete, rfl⟩

/-- The slots that are found, if any, are built to the given entries. -/
def Gives (assembler : Assembler) (contents : Except BuildFault (List Slot))
    (entries : List Entry) :
    Prop :=
  ∃ slots, contents = .ok slots ∧
    List.Forall₂ (fun slot entry => assembler.complete? slot = some entry) slots entries

/-- A directory can be copied if it is live, and then its copy has an entry for each node that it
lists. -/
theorem copyAll_gives (trees : assembler.workspace.Trees) {source : Source} {path : Path}
    {entries : List Entry} :
    assembler.Gives (assembler.resolver.copyAll path source) entries ↔
      assembler.workspace.isLive source = true ∧ assembler.workspace.isDirectory source = true ∧
        Copies assembler.workspace assembler.hash (assembler.workspace.children source)
          entries := by
  constructor
  · intro ⟨slots, copied, complete⟩
    exact copies_of_copy trees (Nat.lt_add_right _ (Nat.lt_succ_self _)) copied complete
  · intro ⟨alive, directory, copies⟩
    obtain ⟨slots, each, complete⟩ :=
      copy_of_copies trees copies (assembler.workspace.home source).nodes.length path
        fun child listed => by
        have above := Workspace.node_lt_child trees listed
        rw [Workspace.home_child listed]
        lia
    exact ⟨slots, Resolver.copy_eq_ok.mpr ⟨alive, directory, each⟩, complete⟩

end Assembler

end Depot

import Depot.Proofs.Build.Composition

set_option autoImplicit false

namespace Depot

variable {workspace : Workspace} {registry : Registry} {chain : List String} {plan : Plan}

theorem Workspace.exists_name_of_file (trees : workspace.Trees) {source : Source}
    (alive : workspace.isLive source = true) (file : workspace.isDirectory source = false) :
    ∃ name, workspace.name source = .ok name := by
  have tree : FileSystem.Tree (workspace.home source) := trees source.volume
  have unequal : source.node ≠ FileSystem.rootId := by
    intro root
    have directory : workspace.isDirectory source = true := by
      rw [isDirectory, root]
      exact tree.rootDirectory
    rw [file] at directory
    cases directory
  obtain ⟨parent, held⟩ := tree.exists_parent (FileSystem.lt_length_of_isLive alive) unequal
  obtain ⟨name, placed⟩ := FileSystem.parent?_eq_some.mp held
  exact ⟨name, by simp [Workspace.name, FileSystem.name, placed]⟩

/-- The trees in the expansion of a plan whose artifact is the last one of a chain, each with the
artifacts that include it. -/
inductive Occurs (registry : Registry) : List String → Plan → List String →
    Outline Ingredient → Prop where
  | here {chain : List String} {plan : Plan} {tree : Outline Ingredient} (present : tree ∈ plan) :
    Occurs registry chain plan chain tree
  | inside {chain chain' : List String} {plan children : Plan} {kind : ContainerKind} {name : Name}
    {tree : Outline Ingredient} (present : .container kind name children ∈ plan)
    (within : Occurs registry chain children chain' tree) : Occurs registry chain plan chain' tree
  | included {chain chain' : List String} {plan : Plan} {name : String} {artifact : Artifact}
    {tree : Outline Ingredient} (present : .leaf (.artifact name) ∈ plan)
    (found : registry.find? name = some artifact) (fresh : name ∉ chain)
    (within : Occurs registry (chain ++ [name]) artifact.plan chain' tree) :
    Occurs registry chain plan chain' tree

/-- The names that the trees of a plan give to what they put into their container. -/
inductive Labels (workspace : Workspace) (registry : Registry) :
    List String → Plan → List Name → Prop where
  | nil {chain : List String} : Labels workspace registry chain [] []
  | file {chain : List String} {source : Source} {name : Name} {rest : Plan} {names : List Name}
    (named : workspace.name source = .ok name)
      (others : Labels workspace registry chain rest names) :
    Labels workspace registry chain (.leaf (.file source) :: rest) (name :: names)
  | artifact {chain : List String} {name : String} {artifact : Artifact} {rest : Plan}
    {inner names : List Name} (found : registry.find? name = some artifact) (fresh : name ∉ chain)
    (own : Labels workspace registry (chain ++ [name]) artifact.plan inner)
    (others : Labels workspace registry chain rest names) :
    Labels workspace registry chain (.leaf (.artifact name) :: rest) (inner ++ names)
  | copy {chain : List String} {source : Source} {rest : Plan} {copies names : List Name}
    (held : copies.map Except.ok = (workspace.residents source).map workspace.name)
    (others : Labels workspace registry chain rest names) :
    Labels workspace registry chain (.leaf (.copy source) :: rest) (copies ++ names)
  | container {chain : List String} {kind : ContainerKind} {name : Name} {children rest : Plan}
    {names : List Name} (others : Labels workspace registry chain rest names) :
    Labels workspace registry chain (.container kind name children :: rest) (name :: names)

/-- What a tree of a plan needs to be built, apart from what the trees in it need. -/
def Admissible (workspace : Workspace) (registry : Registry) (chain : List String) :
    Outline Ingredient → Prop
  | .leaf (.file source) => workspace.isLive source = true ∧ workspace.isDirectory source = false
  | .leaf (.artifact name) => (registry.find? name).isSome = true ∧ name ∉ chain
  | .leaf (.copy source) => workspace.isLive source = true ∧ workspace.isDirectory source = true
  | .container _ _ children => ∀ names, Labels workspace registry chain children names → names.Nodup

/-- All that occurs in the expansion of an artifact is admissible, and at its top no name is used
twice. -/
structure Composable (workspace : Workspace) (registry : Registry) (artifact : Artifact) :
    Prop where
  admissible : ∀ chain tree, Occurs registry [artifact.name] artifact.plan chain tree →
    Admissible workspace registry chain tree
  distinct : ∀ names, Labels workspace registry [artifact.name] artifact.plan names → names.Nodup

theorem Occurs.mono {chain' : List String} {more : Plan} {tree : Outline Ingredient}
    (occurs : Occurs registry chain plan chain' tree) (subset : plan ⊆ more) :
    Occurs registry chain more chain' tree := by
  cases occurs with
  | here present => exact .here (subset present)
  | inside present within => exact .inside (subset present) within
  | included present found fresh within => exact .included (subset present) found fresh within

theorem Labels.unique {names names' : List Name}
    (labels : Labels workspace registry chain plan names)
    (labels' : Labels workspace registry chain plan names') : names = names' := by
  induction labels generalizing names' with
  | nil =>
    cases labels'
    rfl
  | file named _ ih =>
    cases labels' with
    | file named' others =>
      obtain rfl := Except.ok.inj (named.symm.trans named')
      rw [ih others]
  | artifact found _ _ _ ihOwn ih =>
    cases labels' with
    | artifact found' _ own others =>
      obtain rfl := Option.some.inj (found.symm.trans found')
      rw [ihOwn own, ih others]
  | copy held _ ih =>
    cases labels' with
    | copy held' others =>
      have injective : Function.Injective (Except.ok : Name → Except FileSystem.Fault Name) :=
        fun _ _ same => Except.ok.inj same
      rw [List.map_injective_iff.mpr injective (held.trans held'.symm), ih others]
  | container _ ih =>
    cases labels' with
    | container others => rw [ih others]

namespace Assembler

variable {assembler : Assembler} {entries : List Entry}

/-- The entries have the names that the trees give. -/
theorem Yields.labels (trees : assembler.workspace.Trees)
    (yields : Yields assembler chain plan entries) :
    Labels assembler.workspace assembler.registry chain plan (entries.map Entry.name) := by
  induction yields with
  | nil => exact .nil
  | file named _ _ ih => exact .file named ih
  | artifact entered _ _ ihOwn ih =>
    obtain ⟨artifact, found, fresh, rfl⟩ := Registry.enter_eq_ok.mp entered
    rw [List.map_append]
    exact .artifact found fresh ihOwn ih
  | copy alive _ copied _ ih =>
    rw [List.map_append]
    refine .copy ?_ ih
    rw [List.map_map, ← Workspace.children_eq_residents trees alive, ← copied.names]
    rfl
  | container _ _ enclosed _ _ ih =>
    rw [List.map_cons, name_enclose? enclosed]
    exact .container ih

/-- Nothing in the expansion of a plan that can be built is inadmissible, by induction on where it
occurs. -/
theorem Yields.admissible (trees : assembler.workspace.Trees) {chain' : List String}
    {tree : Outline Ingredient} (occurs : Occurs assembler.registry chain plan chain' tree) :
    ∀ {entries : List Entry}, Yields assembler chain plan entries →
      Admissible assembler.workspace assembler.registry chain' tree := by
  induction occurs with
  | here present =>
    intro entries yields
    obtain ⟨part, single⟩ := yields.of_mem present
    cases single with
    | file _ read _ =>
      exact ⟨(Workspace.read_eq_ok.mp read).1, Workspace.isDirectory_of_read read⟩
    | artifact entered _ _ =>
      obtain ⟨artifact, found, fresh, _⟩ := Registry.enter_eq_ok.mp entered
      exact ⟨Option.isSome_of_eq_some found, fresh⟩
    | copy alive directory _ _ => exact ⟨alive, directory⟩
    | container inner distinct _ _ =>
      intro names labels
      rw [labels.unique (inner.labels trees)]
      exact distinct
  | inside present _ ih =>
    intro entries yields
    obtain ⟨part, single⟩ := yields.of_mem present
    cases single with
    | container inner _ _ _ => exact ih inner
  | included present found fresh _ ih =>
    intro entries yields
    obtain ⟨part, single⟩ := yields.of_mem present
    cases single with
    | artifact entered own _ =>
      obtain ⟨artifact, found', _, rfl⟩ := Registry.enter_eq_ok.mp entered
      obtain rfl := Option.some.inj (found.symm.trans found')
      exact ih own

theorem exists_enclose? {members : List Entry} (kind : ContainerKind) (name : Name)
    (distinct : (members.map Entry.name).Nodup)
    (closed : ∀ member ∈ members, Entry.Sealed assembler.hash member) :
    ∃ full, assembler.enclose? kind name members = some full := by
  cases kind with
  | directory => exact ⟨_, rfl⟩
  | archive =>
    obtain ⟨bytes, encoded⟩ :=
      Entry.encodeWith_of_sealed assembler.codec assembler.compression distinct closed
    exact ⟨.ofArchive assembler.hash name members bytes, by rw [enclose?, encoded]⟩

theorem exists_yields_list {plan : Plan}
    (each : ∀ tree ∈ plan, (∀ chain' tree', Occurs assembler.registry chain [tree] chain' tree' →
      Admissible assembler.workspace assembler.registry chain' tree') →
      ∃ entries, Yields assembler chain [tree] entries)
    (admissible : ∀ chain' tree', Occurs assembler.registry chain plan chain' tree' →
      Admissible assembler.workspace assembler.registry chain' tree') :
    ∃ entries, Yields assembler chain plan entries := by
  induction plan with
  | nil => exact ⟨[], .nil⟩
  | cons tree rest ih =>
    obtain ⟨first, here⟩ := each tree List.mem_cons_self fun chain' tree' occurs =>
      admissible chain' tree' (occurs.mono (List.cons_subset_cons _ (List.nil_subset _)))
    obtain ⟨others, later⟩ := ih (fun tree present => each tree (List.mem_cons_of_mem _ present))
      fun chain' tree' occurs => admissible chain' tree' (occurs.mono (List.subset_cons_self _ _))
    exact ⟨first ++ others, yields_cons.mpr ⟨first, others, here, later, rfl⟩⟩

theorem exists_yields_tree (trees : assembler.workspace.Trees)
    (includes : ∀ name inner, assembler.registry.enter chain name = .ok inner →
      (∀ chain' tree', Occurs assembler.registry (chain ++ [name]) inner chain' tree' →
        Admissible assembler.workspace assembler.registry chain' tree') →
      ∃ entries, Yields assembler (chain ++ [name]) inner entries) (tree : Outline Ingredient) :
    (∀ chain' tree', Occurs assembler.registry chain [tree] chain' tree' →
      Admissible assembler.workspace assembler.registry chain' tree') →
    ∃ entries, Yields assembler chain [tree] entries := by
  induction tree using Outline.induct with
  | leaf value =>
    intro admissible
    have here := admissible chain _ (.here List.mem_cons_self)
    cases value with
    | file source =>
      obtain ⟨alive, file⟩ := here
      obtain ⟨name, named⟩ := Workspace.exists_name_of_file trees alive file
      obtain ⟨content, read⟩ := Workspace.exists_read alive file
      exact ⟨_, .file named read .nil⟩
    | artifact name =>
      obtain ⟨known, fresh⟩ := here
      obtain ⟨artifact, found⟩ := Option.isSome_iff_exists.mp known
      have entered := Registry.enter_eq_ok.mpr ⟨artifact, found, fresh, rfl⟩
      obtain ⟨members, own⟩ := includes name artifact.plan entered fun chain' tree' within =>
        admissible chain' tree' (.included List.mem_cons_self found fresh within)
      exact ⟨_, .artifact entered own .nil⟩
    | copy source =>
      obtain ⟨alive, directory⟩ := here
      obtain ⟨copies, copied⟩ := Copies.exist trees assembler.hash alive
      exact ⟨_, .copy alive directory copied .nil⟩
  | container kind name children ih =>
    intro admissible
    obtain ⟨members, inner⟩ := exists_yields_list ih fun chain' tree' within =>
      admissible chain' tree' (.inside List.mem_cons_self within)
    have distinct := admissible chain _ (.here List.mem_cons_self) _ (inner.labels trees)
    obtain ⟨full, enclosed⟩ := exists_enclose? kind name distinct (inner.closed trees)
    exact ⟨_, .container inner distinct enclosed .nil⟩

/-- A plan can be built if all in its expansion is admissible, by induction on the chain. -/
theorem exists_yields (trees : assembler.workspace.Trees) {chain : List String} : ∀ {plan : Plan},
    (∀ chain' tree', Occurs assembler.registry chain plan chain' tree' →
      Admissible assembler.workspace assembler.registry chain' tree') →
    ∃ entries, Yields assembler chain plan entries := by
  induction chain using assembler.registry.inclusion_induct with
  | step chain ih =>
    intro plan admissible
    refine exists_yields_list (fun tree _ => ?_) admissible
    exact exists_yields_tree trees (fun name inner entered => ih name inner entered) tree

theorem full?_isSome (trees : assembler.workspace.Trees) {artifact : Artifact}
    (own : assembler.artifact = artifact.name) :
    (assembler.full? artifact.plan).isSome = true ↔
      Composable assembler.workspace assembler.registry artifact := by
  rw [Option.isSome_iff_exists]
  simp only [full?_eq_some trees, own]
  constructor
  · intro ⟨entries, yields, distinct⟩
    refine ⟨fun chain tree occurs => yields.admissible trees occurs, fun names labels => ?_⟩
    rw [labels.unique (yields.labels trees)]
    exact distinct
  · intro composable
    obtain ⟨entries, yields⟩ := exists_yields trees composable.admissible
    exact ⟨entries, yields, composable.distinct _ (yields.labels trees)⟩

/-- What a plan says of its output, given the outputs of the artifacts in it. -/
inductive Means (assembler : Assembler) (outputs : String → Option (List Entry)) :
    Plan → List Entry → Prop where
  | nil : Means assembler outputs [] []
  | file {source : Source} {name : Name} {content : Bytes} {rest : Plan} {entries : List Entry}
    (named : assembler.workspace.name source = .ok name)
    (read : assembler.workspace.read source = .ok content)
    (others : Means assembler outputs rest entries) :
    Means assembler outputs (.leaf (.file source) :: rest)
      (.ofFile assembler.hash name content (assembler.workspace.stamp source) :: entries)
  | artifact {name : String} {rest : Plan} {members entries : List Entry}
    (own : outputs name = some members) (others : Means assembler outputs rest entries) :
    Means assembler outputs (.leaf (.artifact name) :: rest) (members ++ entries)
  | copy {source : Source} {rest : Plan} {copies entries : List Entry}
    (mirrors : Mirrors assembler.workspace assembler.hash source copies)
    (others : Means assembler outputs rest entries) :
    Means assembler outputs (.leaf (.copy source) :: rest) (copies ++ entries)
  | directory {name : Name} {children rest : Plan} {members entries : List Entry}
    (inner : Means assembler outputs children members)
    (others : Means assembler outputs rest entries) :
    Means assembler outputs (.container .directory name children :: rest)
      (.ofDirectory assembler.hash name members :: entries)
  | archive {name : Name} {children rest : Plan} {members entries : List Entry} {bytes : Bytes}
    (inner : Means assembler outputs children members)
    (encoded : Archive.encodeWith assembler.codec assembler.compression (Entry.toMembers members) =
      .ok bytes)
    (others : Means assembler outputs rest entries) :
    Means assembler outputs (.container .archive name children :: rest)
      (.ofArchive assembler.hash name members bytes :: entries)

/-- What a build of everything gives to each of the registered artifacts that can be built. -/
def outputs (assembler : Assembler) (name : String) : Option (List Entry) :=
  (assembler.registry.find? name).bind fun artifact =>
    { assembler with artifact := name }.full? artifact.plan

theorem Yields.means (trees : assembler.workspace.Trees)
    (yields : Yields assembler chain plan entries) :
    (entries.map Entry.name).Nodup → Means assembler assembler.outputs plan entries := by
  induction yields with
  | nil => exact fun _ => .nil
  | file named read _ ih =>
    intro distinct
    exact .file named read (ih (List.nodup_cons.mp distinct).2)
  | @artifact chain name inner rest members entries entered own _ _ ih =>
    intro distinct
    rw [List.map_append] at distinct
    obtain ⟨artifact, found, _, rfl⟩ := Registry.enter_eq_ok.mp entered
    -- What an artifact gives does not depend on the artifacts that include it.
    have alone : Yields { assembler with artifact := name } [name] artifact.plan members :=
      (own.anti (List.subset_append_right chain [name])).within name
    have built : assembler.outputs name = some members := by
      rw [outputs, found, Option.bind_some]
      exact (@full?_eq_some { assembler with artifact := name } _ _ trees).mpr
        ⟨alone, distinct.of_append_left⟩
    exact .artifact built (ih distinct.of_append_right)
  | copy alive _ copied _ ih =>
    intro distinct
    rw [List.map_append] at distinct
    exact .copy (copied.mirrors trees alive) (ih distinct.of_append_right)
  | @container chain kind name children rest members entries full _ innerDistinct enclosed
    _ ihInner ih =>
    intro distinct
    have others := ih (List.nodup_cons.mp distinct).2
    have inner := ihInner innerDistinct
    cases kind with
    | directory =>
      cases enclosed
      exact .directory inner others
    | archive =>
      rw [enclose?] at enclosed
      split at enclosed
      · next bytes encoded =>
        cases enclosed
        exact .archive inner encoded others
      · cases enclosed

end Assembler

end Depot

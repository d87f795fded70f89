import Depot.Proofs.Build.Copy
import Depot.Proofs.Build.Output
import Depot.Proofs.Outline

set_option autoImplicit false

namespace Depot

namespace Assembler

/-- What the trees of a plan give, where its artifact is the last one of a chain. -/
inductive Yields (assembler : Assembler) : List String → Plan → List Entry → Prop where
  | nil {chain : List String} : Yields assembler chain [] []
  | file {chain : List String} {source : Source} {name : Name} {content : Bytes} {rest : Plan}
    {entries : List Entry} (named : assembler.workspace.name source = .ok name)
    (read : assembler.workspace.read source = .ok content)
    (others : Yields assembler chain rest entries) :
    Yields assembler chain (.leaf (.file source) :: rest)
      (.ofFile assembler.hash name content (assembler.workspace.stamp source) :: entries)
  | artifact {chain : List String} {name : String} {inner rest : Plan}
    {members entries : List Entry} (entered : assembler.registry.enter chain name = .ok inner)
    (own : Yields assembler (chain ++ [name]) inner members)
    (others : Yields assembler chain rest entries) :
    Yields assembler chain (.leaf (.artifact name) :: rest) (members ++ entries)
  | copy {chain : List String} {source : Source} {rest : Plan} {copies entries : List Entry}
    (alive : assembler.workspace.isLive source = true)
    (directory : assembler.workspace.isDirectory source = true)
    (copied : Copies assembler.workspace assembler.hash (assembler.workspace.children source)
      copies)
    (others : Yields assembler chain rest entries) :
    Yields assembler chain (.leaf (.copy source) :: rest) (copies ++ entries)
  | container {chain : List String} {kind : ContainerKind} {name : Name} {children rest : Plan}
    {members entries : List Entry} {full : Entry} (inner : Yields assembler chain children members)
    (distinct : (members.map Entry.name).Nodup)
    (enclosed : assembler.enclose? kind name members = some full)
    (others : Yields assembler chain rest entries) :
    Yields assembler chain (.container kind name children :: rest) (full :: entries)

variable {assembler : Assembler} {chain : List String} {plan : Plan} {entries : List Entry}

theorem Yields.of_nil (yields : Yields assembler chain [] entries) : entries = [] := by
  cases yields
  rfl

/-- Each tree gives its own entries. -/
theorem yields_cons {tree : Outline Ingredient} :
    Yields assembler chain (tree :: plan) entries ↔
      ∃ first others, Yields assembler chain [tree] first ∧ Yields assembler chain plan others ∧
        entries = first ++ others := by
  constructor
  · intro yields
    cases yields with
    | file named read others => exact ⟨[_], _, .file named read .nil, others, rfl⟩
    | artifact entered own others =>
      exact ⟨_ ++ [], _, .artifact entered own .nil, others, by rw [List.append_nil]⟩
    | copy alive directory copied others =>
      exact ⟨_ ++ [], _, .copy alive directory copied .nil, others, by rw [List.append_nil]⟩
    | container inner distinct enclosed others =>
      exact ⟨[_], _, .container inner distinct enclosed .nil, others, rfl⟩
  · rintro ⟨first, others, here, later, rfl⟩
    cases here with
    | file named read none =>
      rw [none.of_nil]
      exact .file named read later
    | artifact entered own none =>
      rw [none.of_nil, List.append_nil]
      exact .artifact entered own later
    | copy alive directory copied none =>
      rw [none.of_nil, List.append_nil]
      exact .copy alive directory copied later
    | container inner distinct enclosed none =>
      rw [none.of_nil]
      exact .container inner distinct enclosed later

theorem Yields.of_mem (yields : Yields assembler chain plan entries) {tree : Outline Ingredient}
    (present : tree ∈ plan) : ∃ part, Yields assembler chain [tree] part := by
  induction plan generalizing entries with
  | nil => cases present
  | cons first rest ih =>
    obtain ⟨part, others, here, later, _⟩ := yields_cons.mp yields
    rcases List.mem_cons.mp present with rfl | present
    · exact ⟨part, here⟩
    · exact ih later present

/-- An artifact gives in a shorter chain what it gives in a longer one. -/
theorem Yields.anti (yields : Yields assembler chain plan entries) :
    ∀ {fewer : List String}, fewer ⊆ chain → Yields assembler fewer plan entries := by
  induction yields with
  | nil => exact fun _ => .nil
  | file named read _ ih => exact fun subset => .file named read (ih subset)
  | @artifact chain name _ _ _ _ entered _ _ ihOwn ih =>
    intro fewer subset
    obtain ⟨artifact, found, fresh, same⟩ := Registry.enter_eq_ok.mp entered
    have entered' :=
      Registry.enter_eq_ok.mpr ⟨artifact, found, fun held => fresh (subset held), same⟩
    have longer : fewer ++ [name] ⊆ chain ++ [name] :=
      List.append_subset.mpr ⟨List.subset_append_of_subset_left _ subset,
        List.subset_append_right _ _⟩
    exact .artifact entered' (ihOwn longer) (ih subset)
  | copy alive directory copied _ ih => exact fun subset => .copy alive directory copied (ih subset)
  | container _ distinct enclosed _ ihInner ih =>
    exact fun subset => .container (ihInner subset) distinct enclosed (ih subset)

/-- It does not matter whose output is built. -/
theorem Yields.within (yields : Yields assembler chain plan entries) (name : String) :
    Yields { assembler with artifact := name } chain plan entries := by
  induction yields with
  | nil => exact .nil
  | file named read _ ih => exact .file named read ih
  | artifact entered _ _ ihOwn ih => exact .artifact entered ihOwn ih
  | copy alive directory copied _ ih => exact .copy alive directory copied ih
  | container _ distinct enclosed _ ihInner ih => exact .container ihInner distinct enclosed ih

theorem Yields.closed (trees : assembler.workspace.Trees)
    (yields : Yields assembler chain plan entries) :
    ∀ entry ∈ entries, Entry.Sealed assembler.hash entry := by
  induction yields with
  | nil => exact List.forall_mem_nil _
  | file _ _ _ ih => exact List.forall_mem_cons.mpr ⟨.file .., ih⟩
  | artifact _ _ _ ihOwn ih => exact List.forall_mem_append.mpr ⟨ihOwn, ih⟩
  | copy _ _ copied _ ih => exact List.forall_mem_append.mpr ⟨copied.closed trees, ih⟩
  | container _ distinct enclosed _ ihInner ih =>
    exact List.forall_mem_cons.mpr ⟨sealed_enclose? distinct ihInner enclosed, ih⟩

theorem not_gives_error {fault : BuildFault} : ¬ assembler.Gives (.error fault) entries :=
  fun ⟨_, made, _⟩ => nomatch made

theorem gives_single {slot : Slot} :
    assembler.Gives (.ok [slot]) entries ↔
      ∃ entry, assembler.complete? slot = some entry ∧ entries = [entry] := by
  simp [Gives, List.forall₂_cons_left_iff]

theorem gives_append {first second : Except BuildFault (List Slot)} :
    assembler.Gives (do return (← first) ++ (← second)) entries ↔
      ∃ left right, assembler.Gives first left ∧ assembler.Gives second right ∧
        entries = left ++ right := by
  constructor
  · intro ⟨slots, made, each⟩
    obtain ⟨here, rfl, later⟩ := bind_ok_iff.mp made
    obtain ⟨there, rfl, result⟩ := bind_ok_iff.mp later
    cases result
    refine ⟨_, _, ⟨here, rfl, (List.forall₂_take_append _ _ _ each.flip).flip⟩,
      ⟨there, rfl, (List.forall₂_drop_append _ _ _ each.flip).flip⟩, ?_⟩
    exact (List.take_append_drop ..).symm
  · rintro ⟨left, right, ⟨here, rfl, each⟩, ⟨there, rfl, eachLater⟩, rfl⟩
    exact ⟨here ++ there, rfl, List.rel_append each eachLater⟩

theorem gives_distinct {path : Path} {contents : Except BuildFault (List Slot)} :
    assembler.Gives (assembler.resolver.distinct path contents) entries ↔
      assembler.Gives contents entries ∧ (entries.map Entry.name).Nodup := by
  simp only [Gives, Resolver.distinct_eq_ok]
  constructor
  · intro ⟨slots, ⟨made, distinct⟩, each⟩
    have names := map_eq_of_forall₂ each fun _ _ built => name_complete? built
    exact ⟨⟨slots, made, each⟩, names ▸ distinct⟩
  · intro ⟨⟨slots, made, each⟩, distinct⟩
    have names := map_eq_of_forall₂ each fun _ _ built => name_complete? built
    exact ⟨slots, ⟨made, names ▸ distinct⟩, each⟩

theorem complete?_source {name : Name} {source : Source} {full : Entry} :
    assembler.complete? (.file name source) = some full ↔
      ∃ content, assembler.workspace.read source = .ok content ∧
        full = .ofFile assembler.hash name content (assembler.workspace.stamp source) := by
  rw [complete?]
  cases assembler.workspace.read source with
  | error fault => simp
  | ok content => simp [eq_comm]

theorem complete?_contents {kind : ContainerKind} {name : Name} {touches : List Touch}
    {contents : Except BuildFault (List Slot)} {full : Entry} :
    assembler.complete? (.container kind name touches contents) = some full ↔
      ∃ members, assembler.Gives contents members ∧
        assembler.enclose? kind name members = some full := by
  cases contents with
  | error fault => simp [complete?, Gives]
  | ok slots => simp [complete?_container, Gives]

section Expand

variable {touched : String → List Touch} {included : Path → String → Except BuildFault (List Slot)}

theorem expandList_gives {plan : Plan}
    (each : ∀ tree ∈ plan, ∀ path entries,
      assembler.Gives (assembler.resolver.expand touched included path tree) entries ↔
        Yields assembler chain [tree] entries) {path : Path} {entries : List Entry} :
    assembler.Gives (assembler.resolver.expandList touched included path plan) entries ↔
      Yields assembler chain plan entries := by
  induction plan generalizing entries with
  | nil =>
    rw [Resolver.expandList]
    constructor
    · rintro ⟨slots, made, each⟩
      cases made
      cases each
      exact .nil
    · intro yields
      rw [yields.of_nil]
      exact ⟨[], rfl, .nil⟩
  | cons tree rest ih =>
    have here := each tree List.mem_cons_self path
    have later := @ih fun tree present => each tree (List.mem_cons_of_mem _ present)
    rw [Resolver.expandList, gives_append, yields_cons]
    simp only [here, later]

/-- The slots of one tree, given those of the artifacts in it. -/
theorem expand_gives (trees : assembler.workspace.Trees)
    (includes : ∀ path name entries, assembler.Gives (included path name) entries ↔
      Yields assembler chain [.leaf (.artifact name)] entries) (tree : Outline Ingredient) :
    ∀ path entries, assembler.Gives (assembler.resolver.expand touched included path tree) entries ↔
      Yields assembler chain [tree] entries := by
  induction tree using Outline.induct with
  | leaf value =>
    intro path entries
    cases value with
    | file source =>
      rw [Resolver.expand]
      split
      · next fault refused =>
        refine iff_of_false not_gives_error fun yields => ?_
        cases yields with
        | file named _ _ => cases refused.symm.trans named
      · next name named =>
        rw [gives_single]
        simp only [complete?_source]
        constructor
        · rintro ⟨full, ⟨content, read, rfl⟩, rfl⟩
          exact .file named read .nil
        · intro yields
          cases yields with
          | file named' read none =>
            obtain rfl := Except.ok.inj (named.symm.trans named')
            rw [none.of_nil]
            exact ⟨_, ⟨_, read, rfl⟩, rfl⟩
    | artifact name =>
      rw [Resolver.expand]
      exact includes path name entries
    | copy source =>
      rw [Resolver.expand, copyAll_gives trees]
      constructor
      · rintro ⟨alive, directory, copies⟩
        rw [← List.append_nil entries]
        exact .copy alive directory copies .nil
      · intro yields
        cases yields with
        | copy alive directory copied none =>
          rw [none.of_nil, List.append_nil]
          exact ⟨alive, directory, copied⟩
  | container kind name children ih =>
    intro path entries
    rw [Resolver.expand, gives_single]
    simp only [complete?_contents, gives_distinct, expandList_gives ih]
    constructor
    · rintro ⟨full, ⟨members, ⟨inner, distinct⟩, enclosed⟩, rfl⟩
      exact .container inner distinct enclosed .nil
    · intro yields
      cases yields with
      | container inner distinct enclosed none =>
        rw [none.of_nil]
        exact ⟨_, ⟨_, ⟨inner, distinct⟩, enclosed⟩, rfl⟩

end Expand

/-- Inclusions, by induction on the chain. -/
theorem place_gives (trees : assembler.workspace.Trees) {chain : List String} :
    ∀ {path : Path} {plan : Plan} {entries : List Entry},
      assembler.Gives (assembler.resolver.place chain path plan) entries ↔
        Yields assembler chain plan entries := by
  induction chain using assembler.registry.inclusion_induct with
  | step chain ih =>
    intro path plan entries
    rw [Resolver.place]
    refine expandList_gives fun tree _ => expand_gives trees (fun path name entries => ?_) tree
    split
    · next fault refused =>
      refine iff_of_false not_gives_error fun yields => ?_
      cases yields with
      | artifact entered _ _ => cases refused.symm.trans entered
    · next inner entered =>
      rw [ih name inner entered]
      constructor
      · intro own
        rw [← List.append_nil entries]
        exact .artifact entered own .nil
      · intro yields
        cases yields with
        | artifact entered' own none =>
          obtain rfl := Except.ok.inj (entered.symm.trans entered')
          rw [none.of_nil, List.append_nil]
          exact own

/-- A plan can be built if its trees give entries with distinct names, and then it is built to
these. -/
theorem full?_eq_some (trees : assembler.workspace.Trees) :
    assembler.full? plan = some entries ↔
      Yields assembler [assembler.artifact] plan entries ∧ (entries.map Entry.name).Nodup := by
  have gives : assembler.full? plan = some entries ↔
      assembler.Gives (assembler.resolver.slots plan) entries := by
    unfold full? Gives
    cases assembler.resolver.slots plan with
    | error fault => simp
    | ok slots => simp [completeEach?_eq_some]
  rw [gives, Resolver.slots, gives_distinct, place_gives trees]
  rfl

end Assembler

end Depot

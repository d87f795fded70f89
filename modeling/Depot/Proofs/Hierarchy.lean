import Depot.Entry
import Depot.Proofs.Path.Flat
import Depot.Sample
import Mathlib.Data.List.Nodup

set_option autoImplicit false

namespace Depot.Hierarchy

variable {α : Type} [Hierarchy α] {items : List α} {item : α}

theorem preorder_eq (parent : Path) (item : α) :
    preorder parent item =
      (parent.push (name item), item) :: (children item).flatMap
        (preorder (parent.push (name item))) := by
  rw [preorder]
  simp only [List.flatMap_subtype, List.unattach_attach]

def hanging (located : Path × α) : List (Path × α) :=
  located :: (children located.2).flatMap (preorder located.1)

theorem hanging_located (path : Path) (items : List α) :
    (located path items).flatMap hanging = items.flatMap (preorder path) := by
  rw [located, List.flatMap_map]
  exact List.flatMap_congr fun item _ => (preorder_eq path item).symm

/-- What is on a stack is visited together with all that it holds, one after another. -/
theorem unstack_eq (stack : List (Path × α)) : unstack stack = stack.flatMap hanging := by
  induction stack using unstack.induct with
  | case1 => rw [unstack, List.flatMap_nil]
  | case2 path item rest ih =>
    rw [unstack, ih, List.flatMap_append, hanging_located, List.flatMap_cons]
    rfl

theorem walk_eq (items : List α) : walk items = items.flatMap (preorder .root) := by
  rw [walk, unstack_eq, hanging_located]

theorem pending_reverse (stack : List (Path × α)) : pending stack.reverse = pending stack := by
  rw [pending, List.map_reverse, List.sum_reverse_nat]
  rfl

/-- A walk as a loop: the last item is taken off a stack that grows at its end, what it holds is put
there in reverse, and what has been visited is collected. -/
def loop (visited stack : List (Path × α)) : List (Path × α) :=
  match _last : stack.getLast? with
  | none => visited
  | some (path, item) =>
    loop (visited ++ [(path, item)]) (stack.dropLast ++ (located path (children item)).reverse)
termination_by pending stack
decreasing_by
  have whole : pending stack = pending stack.dropLast + size item := by
    conv_lhs => rw [← List.dropLast_append_getLast? (path, item) _last, pending_append]
    rfl
  rw [pending_append, pending_reverse, pending_located, whole]
  exact Nat.add_lt_add_left (size_children item) _

/-- The loop takes from the end of its stack what a walk takes from the front. -/
theorem loop_eq (visited stack : List (Path × α)) :
    loop visited stack = visited ++ unstack stack.reverse := by
  induction visited, stack using loop.induct with
  | case1 visited stack last =>
    rw [loop, last, List.getLast?_eq_none_iff.mp last, List.reverse_nil, unstack, List.append_nil]
  | case2 visited stack path item last ih =>
    have whole : stack.reverse = (path, item) :: stack.dropLast.reverse := by
      conv_lhs => rw [← List.dropLast_append_getLast? (path, item) last, List.reverse_append]
      rfl
    rw [loop, last]
    show loop (visited ++ [(path, item)])
      (stack.dropLast ++ (located path (children item)).reverse) = _
    rw [ih, whole, unstack, List.reverse_append, List.reverse_reverse, List.append_assoc,
      List.singleton_append]

/-- An item stands at the end of a chain of names that leads down to it from the top. -/
inductive Stands : List α → List Name → α → Prop
  | top {items : List α} {item : α} (present : item ∈ items) : Stands items [name item] item
  | inside {items : List α} {names : List Name} {outer item : α} (present : outer ∈ items)
    (stands : Stands (children outer) names item) : Stands items (name outer :: names) item

theorem stands_cons_iff {first : Name} {rest : List Name} :
    Stands items (first :: rest) item ↔
      ∃ outer ∈ items, name outer = first ∧
        (rest = [] ∧ outer = item ∨ Stands (children outer) rest item) := by
  constructor
  · intro stands
    cases stands with
    | top present => exact ⟨item, present, rfl, .inl ⟨rfl, rfl⟩⟩
    | @inside _ _ outer _ present stands => exact ⟨outer, present, rfl, .inr stands⟩
  · rintro ⟨outer, present, rfl, ⟨rfl, rfl⟩ | stands⟩
    · exact .top present
    · exact .inside present stands

/-- What is visited at a path stands there. -/
theorem stands_of_mem {parent : Path} {located : Path × α}
    (visited : located ∈ items.flatMap (preorder parent)) :
    ∃ names, located.1 = ⟨parent.names ++ names⟩ ∧ Stands items names located.2 := by
  rw [List.mem_flatMap] at visited
  obtain ⟨outer, present, visited⟩ := visited
  induction parent, outer using preorder.induct generalizing items
  case case1 parent outer path ih =>
  rw [preorder_eq] at visited
  rcases List.mem_cons.mp visited with rfl | deeper
  · exact ⟨[name outer], rfl, .top present⟩
  · obtain ⟨inner, held, visited⟩ := List.mem_flatMap.mp deeper
    obtain ⟨names, same, stands⟩ := ih inner held held visited
    exact ⟨name outer :: names, by simp [same, path, Path.push], .inside present stands⟩

/-- What stands at a path is visited there. -/
theorem Stands.visited {names : List Name} (stands : Stands items names item) (parent : Path) :
    ((⟨parent.names ++ names⟩, item) : Path × α) ∈ items.flatMap (preorder parent) := by
  induction stands generalizing parent with
  | @top items item present =>
    rw [List.mem_flatMap]
    exact ⟨item, present, preorder_eq parent item ▸ List.mem_cons_self⟩
  | @inside items names outer item present _ ih =>
    rw [List.mem_flatMap]
    refine ⟨outer, present, preorder_eq parent outer ▸ List.mem_cons_of_mem _ ?_⟩
    have deeper := ih (parent.push (name outer))
    rwa [Path.push, List.append_assoc, List.singleton_append] at deeper

theorem mem_walk_iff {path : Path} : (path, item) ∈ walk items ↔ Stands items path.names item := by
  rw [walk_eq]
  constructor
  · intro visited
    obtain ⟨names, same, stands⟩ := stands_of_mem visited
    cases (same : path = _)
    exact stands
  · intro stands
    exact stands.visited .root

/-- What stands at the end of a chain of names stands at the top or in what stands at the end of the
chain without its own name. -/
theorem Stands.exists_around {names : List Name} (stands : Stands items names item) :
    ∃ front, names = front ++ [name item] ∧
      (front = [] ∨ ∃ outer, Stands items front outer ∧ item ∈ children outer) := by
  induction stands with
  | top present => exact ⟨[], rfl, .inl rfl⟩
  | @inside items names outer item present stands ih =>
    obtain ⟨front, rfl, around⟩ := ih
    refine ⟨name outer :: front, rfl, .inr ?_⟩
    rcases around with rfl | ⟨between, found, held⟩
    · rcases stands_cons_iff.mp stands with ⟨other, among, _, ⟨_, rfl⟩ | none⟩
      · exact ⟨outer, .top present, among⟩
      · cases none
    · exact ⟨between, .inside present found, held⟩

/-- No two items have the same name where they are next to each other, at every depth. -/
inductive Distinct : List α → Prop
  | intro {items : List α} (names : (items.map name).Nodup)
    (inside : ∀ item ∈ items, Distinct (children item)) : Distinct items

/-- Items that are next to each other are in the order of their names, at every depth. -/
inductive Ascending : List α → Prop
  | intro {items : List α} (names : (items.map name).Pairwise fun left right =>
    left.precedes right = true)
    (inside : ∀ item ∈ items, Ascending (children item)) : Ascending items

theorem ne_of_precedes {left right : Name} (before : left.precedes right = true) :
    left ≠ right := by
  rintro rfl
  exact List.lt_irrefl left.bytes (of_decide_eq_true before)

theorem Ascending.distinct (ascending : Ascending items) : Distinct items := by
  induction ascending with
  | intro names _ ih => exact .intro (names.imp ne_of_precedes) ih

/-- The paths below an item go on where its own path ends. -/
theorem longer_of_mem {parent : Path} {path : Path}
    (visited : path ∈ ((children item).flatMap (preorder (parent.push (name item)))).map Prod.fst) :
    ∃ next rest, path.names = parent.names ++ name item :: next :: rest := by
  obtain ⟨located, held, rfl⟩ := List.mem_map.mp visited
  obtain ⟨names, path, stands⟩ := stands_of_mem held
  rw [path]
  cases stands with
  | top present => exact ⟨_, _, List.append_assoc ..⟩
  | inside present stands => exact ⟨_, _, List.append_assoc ..⟩

theorem starts_of_mem {parent : Path} {path : Path}
    (visited : path ∈ (preorder parent item).map Prod.fst) :
    ∃ rest, path.names = parent.names ++ name item :: rest := by
  rw [preorder_eq, List.map_cons] at visited
  rcases List.mem_cons.mp visited with rfl | deeper
  · exact ⟨[], rfl⟩
  · obtain ⟨next, rest, longer⟩ := longer_of_mem deeper
    exact ⟨next :: rest, longer⟩

/-- No path is visited twice, by induction on the depth: the paths below an item are longer than its
own path, and they differ from the paths below the items beside it. -/
theorem Distinct.nodup (distinct : Distinct items) (parent : Path) :
    ((items.flatMap (preorder parent)).map Prod.fst).Nodup := by
  induction distinct generalizing parent with
  | @intro items names _ ih =>
    rw [List.map_flatMap, List.nodup_flatMap]
    refine ⟨fun outer present => ?_, ?_⟩
    · rw [preorder_eq, List.map_cons, List.nodup_cons]
      refine ⟨fun again => ?_, ih outer present _⟩
      obtain ⟨next, rest, longer⟩ := longer_of_mem again
      simp [Path.push] at longer
    · refine (List.pairwise_map.mp names).imp fun {left right} unequal path first second => unequal
        ?_
      obtain ⟨rest, starts⟩ := starts_of_mem first
      obtain ⟨rest', starts'⟩ := starts_of_mem second
      exact (List.cons.inj (List.append_cancel_left (starts.symm.trans starts'))).1

/-- Of two paths in one directory, the first one comes first by name. -/
def Siblings (left right : Path × α) : Prop :=
  ∀ (parent : Path) (first second : Name), left.1 = parent.push first → right.1 =
    parent.push second →
    first.precedes second = true

theorem push_eq_iff {left right : Path} {first second : Name} :
    left.push first = right.push second ↔ left = right ∧ first = second := by
  obtain ⟨names⟩ := left
  obtain ⟨names'⟩ := right
  simp [Path.push]

/-- A walk visits what is next to each other in the order of the names, by induction on the depth.
-/
theorem Ascending.siblings (ascending : Ascending items) (parent : Path) :
    (items.flatMap (preorder parent)).Pairwise Siblings := by
  induction ascending generalizing parent with
  | @intro items names _ ih =>
    rw [List.pairwise_flatMap]
    refine ⟨fun outer present => ?_, ?_⟩
    · rw [preorder_eq, List.pairwise_cons]
      refine ⟨fun located deeper around first second here there => ?_, ih outer present _⟩
      obtain ⟨next, rest, longer⟩ := longer_of_mem (List.mem_map_of_mem deeper)
      obtain ⟨rfl, _⟩ := push_eq_iff.mp here
      rw [there, Path.push] at longer
      simpa using congrArg List.length (List.append_cancel_left longer)
    · refine (List.pairwise_map.mp names).imp fun {left right} before => ?_
      intro located visited located' visited' around first second here there
      obtain ⟨rest, starts⟩ := starts_of_mem (List.mem_map_of_mem visited)
      obtain ⟨rest', starts'⟩ := starts_of_mem (List.mem_map_of_mem visited')
      rw [here, Path.push] at starts
      rw [there, Path.push] at starts'
      -- the directory around both is where their paths are cut before the last name
      have cut := congrArg List.dropLast starts
      have cut' := congrArg List.dropLast starts'
      rw [List.dropLast_concat, List.dropLast_append_cons] at cut cut'
      have same := List.append_cancel_left (cut.symm.trans cut')
      cases rest with
      | nil =>
        cases rest' with
        | nil =>
          have own := (List.append_inj' starts rfl).2
          have own' := (List.append_inj' starts' rfl).2
          cases own
          cases own'
          exact before
        | cons => cases same
      | cons =>
        cases rest' with
        | nil => cases same
        | cons => exact absurd (List.cons.inj same).1 (ne_of_precedes before)

/-- Under distinct names there is one item to find for a name. -/
theorem find?_name_eq_some_iff (names : (items.map name).Nodup) {next : Name} :
    items.find? (fun item => name item = next) = some item ↔ item ∈ items ∧ name item = next := by
  constructor
  · intro found
    exact ⟨List.mem_of_find?_eq_some found, by simpa using List.find?_some found⟩
  · rintro ⟨present, rfl⟩
    cases found : items.find? fun other => name other = name item with
    | none => simpa using List.find?_eq_none.mp found item present
    | some other =>
      have same : name other = name item := by simpa using List.find?_some found
      rw [List.inj_on_of_nodup_map names (List.mem_of_find?_eq_some found) present same]

/-- Following names goes down where items stand, by induction on the names. -/
theorem Distinct.follow_eq_some_iff (distinct : Distinct items) {found : Option α}
    {names : List Name} :
    follow found items names = some item ↔ names = [] ∧ found = some item ∨
      Stands items names item := by
  induction names generalizing items found with
  | nil =>
    have none : ¬ Stands items [] item := nofun
    simp [follow, none]
  | cons next rest ih =>
    obtain ⟨unique, inside⟩ := distinct
    rw [stands_cons_iff, follow]
    cases first : items.find? fun item => name item = next with
    | none =>
      have absent : ∀ outer ∈ items, name outer ≠ next := by simpa using List.find?_eq_none.mp first
      refine iff_of_false nofun ?_
      rintro (⟨none, _⟩ | ⟨outer, present, same, _⟩)
      · cases none
      · exact absent outer present same
    | some outer =>
      obtain ⟨present, same⟩ := (find?_name_eq_some_iff unique).mp first
      show follow (some outer) (children outer) rest = some item ↔ _
      rw [ih (inside outer present), Option.some_inj]
      constructor
      · exact fun reached => .inr ⟨outer, present, same, reached⟩
      · rintro (⟨none, _⟩ | ⟨other, held, same', reached⟩)
        · cases none
        · rwa [List.inj_on_of_nodup_map unique held present (same'.trans same.symm)] at reached

/-- What a walk visits is what can be found. Entries that stand in archives are visited, too. -/
theorem walk_finds (distinct : Distinct items) :
    loop [] (items.map fun item => (Path.ofName (name item), item)).reverse = walk items ∧
    walk items = items.flatMap (preorder .root) ∧
    (∀ path item, (path, item) ∈ walk items ↔ Stands items path.names item) ∧
    ((walk items).map fun located => located.1.bytes).Nodup ∧
    ∀ path item, find? items path = some item ↔ (path, item) ∈ walk items := by
  refine ⟨?_, walk_eq items, fun path item => mem_walk_iff, ?_, fun path item => ?_⟩
  · rw [loop_eq, List.nil_append, List.reverse_reverse]
    rfl
  · have nodup := (distinct.nodup .root).map Path.Flat.bytes_injective
    rwa [List.map_map, ← walk_eq] at nodup
  · rw [mem_walk_iff, find?, distinct.follow_eq_some_iff]
    simp

namespace Sample

def lib : Name := ⟨Bytes.ofString "lib", by decide⟩

def packed : Name := ⟨Bytes.ofString "packed.zip", by decide⟩

def inner : Name := ⟨Bytes.ofString "inner.txt", by decide⟩

/-- A file that stands in an archive. -/
def note : Entry := .ofFile .blake3 inner Sample.text 1

def shelf : List Entry :=
  [.ofDirectory .blake3 lib [.ofArchive .blake3 packed [note] Sample.newText]]

/-- A file in an archive in a directory is visited at its path and found there. -/
theorem walk_finds_archived :
    Distinct shelf ∧ ((⟨[lib, packed, inner]⟩, note) : Path × Entry) ∈ walk shelf ∧
      find? shelf ⟨[lib, packed, inner]⟩ = some note := by
  have distinct : Distinct shelf := by
    refine ⟨by decide, List.forall_mem_singleton.mpr ⟨by decide, List.forall_mem_singleton.mpr ?_⟩⟩
    exact ⟨by decide, List.forall_mem_singleton.mpr ⟨List.nodup_nil, fun item none => nomatch none⟩⟩
  have stands : Stands shelf [lib, packed, inner] note :=
    .inside List.mem_cons_self (.inside List.mem_cons_self (.top List.mem_cons_self))
  obtain ⟨_, _, visited, _, found⟩ := walk_finds distinct
  exact ⟨distinct, (visited _ _).mpr stands, (found _ _).mpr ((visited _ _).mpr stands)⟩

end Sample

end Depot.Hierarchy

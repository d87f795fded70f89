import Depot.Proofs.Build.Composition
import Depot.Proofs.Build.Uses

set_option autoImplicit false

namespace Depot

open Slot (Reached Precise uses usesEach)

/-- Some slots are precise, and a change to the file concerns the given dependencies only if the
slots use the file. -/
structure Narrow (workspace : Workspace) (source : Source) (touches : List Touch)
    (slots : List Slot) : Prop where
  precise : ∀ slot ∈ slots, Precise workspace source slot
  used : ∀ touch ∈ touches, workspace.concerns source touch = true → usesEach source slots ≠ 0

namespace Narrow

variable {workspace : Workspace} {source : Source} {touches : List Touch} {slots : List Slot}

theorem container (narrow : Narrow workspace source touches slots) (kind : ContainerKind)
    (name : Name) : Precise workspace source (.container kind name touches (.ok slots)) :=
  .container (fun ⟨touch, held, touched⟩ => narrow.used touch held touched) narrow.precise

theorem single {slot : Slot} (precise : Precise workspace source slot) :
    Narrow workspace source slot.touches [slot] where
  precise _ present := List.mem_singleton.mp present ▸ precise
  used touch held touched :=
    Slot.usesEach_ne_zero.mpr ⟨slot, List.mem_singleton_self _, precise.used ⟨touch, held, touched⟩⟩

theorem append {more : List Touch} {others : List Slot}
    (here : Narrow workspace source touches slots) (there : Narrow workspace source more others) :
    Narrow workspace source (touches ++ more) (slots ++ others) where
  precise := List.forall_mem_append.mpr ⟨here.precise, there.precise⟩
  used touch held touched := by
    rw [Slot.usesEach_append]
    rcases List.mem_append.mp held with held | held
    · have := here.used touch held touched
      omega
    · have := there.used touch held touched
      omega

end Narrow

namespace Resolver

variable {resolver : Resolver} {source : Source}

/-- The slot of a node in a copied directory is precise, given that the copy inside is, and it uses
the file that the node is or holds. -/
theorem childSlot_narrow (trees : resolver.workspace.Trees)
    (plain : resolver.workspace.isDirectory source = false)
    (alive : resolver.workspace.isLive source = true) {child : Source}
    (childLive : resolver.workspace.isLive child = true) {depth : Nat} {path : Path} {name : Name}
    (resolved : (resolver.childSlot depth path child name).Resolved)
    (inner : ∀ slots, resolver.copy depth (path.push name) child = .ok slots →
      (∀ slot ∈ slots, slot.Resolved) → Narrow resolver.workspace source [.copy child] slots) :
    Precise resolver.workspace source (resolver.childSlot depth path child name) ∧
      (resolver.workspace.isAncestor child source = true →
        uses source (resolver.childSlot depth path child name) ≠ 0) := by
  rcases childSlot_cases resolved with ⟨childPlain, same⟩ | ⟨_, slots, same, copied, _, resolved⟩
  · rw [same]
    refine ⟨.file fun above => Workspace.eq_of_isAncestor trees plain childLive above,
      fun above => ?_⟩
    rw [uses, if_pos (Workspace.eq_of_isAncestor trees childPlain alive above).symm]
    exact Nat.one_ne_zero
  · rw [same]
    have narrow := inner slots copied resolved
    refine ⟨narrow.container .directory name, fun above => ?_⟩
    refine narrow.used _ (List.mem_singleton_self _) ?_
    simp only [Workspace.concerns, Workspace.touchesCopy, above, Bool.true_or]

/-- Copies, by induction on the depth, which is enough for all that the directory holds. -/
theorem copy_narrow (trees : resolver.workspace.Trees)
    (plain : resolver.workspace.isDirectory source = false)
    (alive : resolver.workspace.isLive source = true) {depth : Nat} :
    ∀ {path : Path} {directory : Source} {slots : List Slot},
      (resolver.workspace.home directory).nodes.length < depth + directory.node →
      resolver.workspace.isLive directory = true →
      resolver.copy depth path directory = .ok slots → (∀ slot ∈ slots, slot.Resolved) →
      Narrow resolver.workspace source [.copy directory] slots := by
  induction depth with
  | zero =>
    intro path directory slots deep directoryLive _ _
    have inside := FileSystem.lt_length_of_isLive directoryLive
    lia
  | succ depth ih =>
    intro path directory slots deep directoryLive copied resolved
    obtain ⟨_, isDirectory, each⟩ := copy_eq_ok.mp copied
    have one : ∀ child ∈ resolver.workspace.children directory, ∀ name,
        resolver.childSlot depth path child name ∈ slots →
        Precise resolver.workspace source (resolver.childSlot depth path child name) ∧
          (resolver.workspace.isAncestor child source = true →
            uses source (resolver.childSlot depth path child name) ≠ 0) := by
      intro child listed name held
      have childLive := (Workspace.isLive_child trees listed).trans directoryLive
      have lower := Workspace.node_lt_child trees listed
      have home := Workspace.home_child listed
      exact childSlot_narrow trees plain alive childLive (resolved _ held)
        fun slots copied resolved =>
        ih (by rw [home]; lia) childLive copied resolved
    refine ⟨fun slot held => ?_, fun touch held touched => ?_⟩
    · obtain ⟨child, listed, name, _, rfl⟩ := exists_of_mem_right each held
      exact (one child listed name held).1
    · rw [List.mem_singleton.mp held] at touched
      simp only [Workspace.concerns, Workspace.touchesCopy, Bool.or_eq_true] at touched
      have apart : directory ≠ source := by
        rintro rfl
        exact Bool.false_ne_true (plain.symm.trans isDirectory)
      have above : resolver.workspace.isAncestor directory source = true := touched.resolve_right
        fun below => apart (Workspace.eq_of_isAncestor trees plain directoryLive below)
      obtain ⟨child, listed, under⟩ := Workspace.exists_child_isAncestor trees alive above apart
      obtain ⟨_, held, name, _, rfl⟩ := exists_of_mem_left each listed
      exact Slot.usesEach_ne_zero.mpr ⟨_, held, (one child listed name held).2 under⟩

end Resolver

namespace Assembler

variable {assembler : Assembler} {source : Source}

section Expand

variable {touched : String → List Touch} {included : Path → String → Except BuildFault (List Slot)}

mutual

/-- The slots of one tree of a plan, given that those of the artifacts in it are precise. -/
theorem expand_narrow (trees : assembler.workspace.Trees)
    (plain : assembler.workspace.isDirectory source = false)
    (alive : assembler.workspace.isLive source = true)
    (narrows : ∀ path name slots, included path name = .ok slots → assembler.Buildable slots →
      Narrow assembler.workspace source (touched name) slots) :
    (tree : Outline Ingredient) → ∀ {path : Path} {slots : List Slot},
    assembler.resolver.expand touched included path tree = .ok slots → assembler.Buildable slots →
    Narrow assembler.workspace source (Outline.touches touched tree) slots
  | .leaf (.file other), path, slots, expanded, buildable => by
    rw [Resolver.expand] at expanded
    split at expanded
    · cases expanded
    · cases expanded
      obtain ⟨full, complete⟩ := buildable _ (List.mem_singleton_self _)
      obtain ⟨content, read, _⟩ := complete?_source.mp complete
      have otherLive := (Workspace.read_eq_ok.mp read).1
      exact .single (.file fun above => Workspace.eq_of_isAncestor trees plain otherLive above)
  | .leaf (.artifact name), path, slots, expanded, buildable => by
    rw [Resolver.expand] at expanded
    exact narrows path name slots expanded buildable
  | .leaf (.copy directory), path, slots, expanded, buildable => by
    rw [Resolver.expand] at expanded
    have directoryLive := (Resolver.copy_eq_ok.mp expanded).1
    have deep : ∀ length : Nat, length < length + 1 + directory.node := fun _ => by omega
    exact Resolver.copy_narrow trees plain alive (deep _) directoryLive expanded buildable.resolved
  | .container kind name children, path, slots, expanded, buildable => by
    rw [Resolver.expand] at expanded
    cases expanded
    obtain ⟨full, complete⟩ := buildable _ (List.mem_singleton_self _)
    cases contents : assembler.resolver.distinct (path.push name)
      (assembler.resolver.expandList touched included (path.push name) children) with
    | error fault =>
      rw [contents] at complete
      cases complete
    | ok inner =>
      rw [contents] at complete
      have listed := (Resolver.distinct_eq_ok.mp contents).1
      have narrow := expandList_narrow trees plain alive narrows children listed
        (buildable_of_complete complete)
      exact .single (narrow.container kind name)

theorem expandList_narrow (trees : assembler.workspace.Trees)
    (plain : assembler.workspace.isDirectory source = false)
    (alive : assembler.workspace.isLive source = true)
    (narrows : ∀ path name slots, included path name = .ok slots → assembler.Buildable slots →
      Narrow assembler.workspace source (touched name) slots) :
    (plan : List (Outline Ingredient)) → ∀ {path : Path} {slots : List Slot},
    assembler.resolver.expandList touched included path plan = .ok slots →
    assembler.Buildable slots →
    Narrow assembler.workspace source (Outline.touchesList touched plan) slots
  | [], path, slots, expanded, _ => by
    rw [Resolver.expandList] at expanded
    cases expanded
    exact ⟨by simp, by simp [Outline.touchesList]⟩
  | tree :: rest, path, slots, expanded, buildable => by
    simp only [Resolver.expandList, bind_ok_iff] at expanded
    obtain ⟨first, here, others, there, result⟩ := expanded
    cases result
    have ahead := expand_narrow trees plain alive narrows tree here fun slot present =>
      buildable slot (List.mem_append_left _ present)
    have behind := expandList_narrow trees plain alive narrows rest there fun slot present =>
      buildable slot (List.mem_append_right _ present)
    exact ahead.append behind

end

end Expand

/-- Inclusions, by induction on the chain. -/
theorem place_narrow (trees : assembler.workspace.Trees)
    (plain : assembler.workspace.isDirectory source = false)
    (alive : assembler.workspace.isLive source = true) {chain : List String} :
    ∀ {path : Path} {plan : Plan} {slots : List Slot},
      assembler.resolver.place chain path plan = .ok slots → assembler.Buildable slots →
      Narrow assembler.workspace source (assembler.registry.touches chain plan) slots := by
  induction chain using assembler.registry.inclusion_induct with
  | step chain ih =>
    intro path plan slots placed buildable
    rw [Resolver.place] at placed
    have same : assembler.registry.touches chain plan = _ :=
      Resolver.touches_eq assembler.resolver chain plan
    rw [same]
    refine expandList_narrow trees plain alive ?_ plan placed buildable
    intro path name slots included buildable
    split at included
    · cases included
    · next inner entered =>
      rw [Resolver.touched, entered]
      exact ih name inner entered included buildable

/-- The slots of a plan that can be built are precise. -/
theorem slots_precise (trees : assembler.workspace.Trees) {content : Bytes}
    (read : assembler.workspace.read source = .ok content) {plan : Plan} {slots : List Slot}
    (expanded : assembler.resolver.slots plan = .ok slots) (buildable : assembler.Buildable slots) :
    ∀ slot ∈ slots, Precise assembler.workspace source slot := by
  have placed := (Resolver.distinct_eq_ok.mp expanded).1
  exact (place_narrow trees (Workspace.isDirectory_of_read read)
    (Workspace.read_eq_ok.mp read).1 placed
    buildable).precise

end Assembler

end Depot

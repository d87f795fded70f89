import Depot.Proofs.Build.Blame
import Depot.Proofs.Build.Expansion

set_option autoImplicit false

namespace Depot

def Workspace.visits (workspace : Workspace) (changed : Source) (slot : Slot) : Bool :=
  match workspace.reaches changed slot.touches with
  | .ok reached => reached
  | .error _ => false

theorem Workspace.visits_iff {workspace : Workspace} {changed : Source} {slot : Slot} :
    workspace.visits changed slot = true ↔ workspace.reaches changed slot.touches = .ok true := by
  unfold visits
  cases workspace.reaches changed slot.touches <;> simp

namespace Slot

/-- A slot encloses itself and all slots inside, at every depth. -/
inductive Encloses : Slot → Slot → Prop where
  | self (slot : Slot) : Encloses slot slot
  | inside {kind : ContainerKind} {name : Name} {touches : List Touch} {slots : List Slot}
    {slot inner : Slot} (present : slot ∈ slots) (encloses : Encloses slot inner) :
    Encloses (.container kind name touches (.ok slots)) inner

mutual

/-- A walk through a slot and what it encloses. What is not to be visited is skipped with all that
is inside. -/
def walk (visits : Slot → Bool) : Slot → List Slot
  | .file name source =>
    let slot := Slot.file name source
    if visits slot then [slot] else []
  | .container kind name touches contents =>
    let slot := Slot.container kind name touches contents
    if visits slot then slot :: walkIn visits contents else []

/-- A walk through what a container holds, unless this is not known. -/
def walkIn (visits : Slot → Bool) : Except BuildFault (List Slot) → List Slot
  | .error _ => []
  | .ok slots => walkEach visits slots

def walkEach (visits : Slot → Bool) : List Slot → List Slot
  | [] => []
  | slot :: rest => walk visits slot ++ walkEach visits rest

end

theorem walkEach_eq (visits : Slot → Bool) (slots : List Slot) :
    walkEach visits slots = slots.flatMap (walk visits) := by
  induction slots with
  | nil => rfl
  | cons slot rest ih => rw [walkEach, ih, List.flatMap_cons]

def all (slot : Slot) : List Slot :=
  slot.walk fun _ => true

theorem mem_all_iff {slot inner : Slot} : inner ∈ slot.all ↔ slot.Encloses inner := by
  constructor
  · intro present
    induction slot using induct with
    | file name source =>
      rw [all, walk, if_pos rfl] at present
      exact List.mem_singleton.mp present ▸ .self _
    | failed kind name touches fault =>
      rw [all, walk, if_pos rfl, walkIn] at present
      exact List.mem_singleton.mp present ▸ .self _
    | container kind name touches slots ih =>
      rw [all, walk, if_pos rfl, walkIn, walkEach_eq] at present
      rcases List.mem_cons.mp present with rfl | deeper
      · exact .self _
      · obtain ⟨slot, held, within⟩ := List.mem_flatMap.mp deeper
        exact .inside held (ih slot held within)
  · intro encloses
    induction encloses with
    | self slot =>
      cases slot with
      | file name source => exact List.mem_cons_self
      | container kind name touches contents => exact List.mem_cons_self
    | @inside kind name touches slots slot inner present _ ih =>
      rw [all, walk, if_pos rfl, walkIn, walkEach_eq]
      exact List.mem_cons_of_mem _ (List.mem_flatMap.mpr ⟨slot, present, ih⟩)

/-- A walk misses nothing that is to be visited, if what encloses this is to be visited too. -/
theorem walk_eq_filter {visits : Slot → Bool} {slot : Slot}
    (upward : ∀ outer inner, slot.Encloses outer → outer.Encloses inner → visits inner = true →
      visits outer = true) : slot.walk visits = slot.all.filter visits := by
  induction slot using induct with
  | file name source =>
    cases visited : visits (.file name source) <;> simp [all, walk, visited]
  | failed kind name touches fault =>
    cases visited : visits (.container kind name touches (.error fault)) <;>
      simp [all, walk, walkIn, visited]
  | container kind name touches slots ih =>
    cases visited : visits (.container kind name touches (.ok slots)) with
    | true =>
      have each : ∀ slot ∈ slots, slot.walk visits = slot.all.filter visits :=
        fun slot present => ih slot present fun outer inner within =>
          upward outer inner (.inside present within)
      rw [all, walk, walk, if_pos visited, if_pos rfl, List.filter_cons_of_pos visited,
        walkIn, walkIn, walkEach_eq, walkEach_eq, List.filter_flatMap]
      exact congrArg _ (List.flatMap_congr each)
    | false =>
      have skipped : ∀ inner ∈ (container kind name touches (.ok slots)).all,
          ¬ visits inner = true := by
        intro inner present reached
        have above := upward _ inner (.self _) (mem_all_iff.mp present) reached
        rw [visited] at above
        cases above
      rw [List.filter_eq_nil_iff.mpr skipped, walk]
      simp [visited]

variable {workspace : Workspace}

/-- All dependencies of a slot are known, and what reaches a slot inside reaches the slot, at every
depth. Apart from this, anything may be wrong. -/
inductive Nested (workspace : Workspace) : Slot → Prop where
  | file (name : Name) (source : Source) : Nested workspace (.file name source)
  | container {kind : ContainerKind} {name : Name} {touches : List Touch}
    {contents : Except BuildFault (List Slot)} (known : ∀ fault, .fault fault ∉ touches)
    (upward : ∀ slots, contents = .ok slots → ∀ slot ∈ slots, ∀ changed,
      Reached workspace changed slot →
      Reached workspace changed (.container kind name touches contents))
    (inner : ∀ slots, contents = .ok slots → ∀ slot ∈ slots, Nested workspace slot) :
    Nested workspace (.container kind name touches contents)

theorem Nested.known {slot : Slot} (nested : Nested workspace slot) (fault : BuildFault) :
    .fault fault ∉ slot.touches := by
  cases nested with
  | file name source => simp [touches]
  | container known _ _ => exact known fault

/-- From the outside in, along the slots that enclose the last one. -/
theorem Nested.encloses {outer inner : Slot} (nested : Nested workspace outer)
    (encloses : outer.Encloses inner) :
    Nested workspace inner ∧
      ∀ changed, Reached workspace changed inner → Reached workspace changed outer := by
  induction encloses with
  | self slot => exact ⟨nested, fun _ reached => reached⟩
  | inside present _ ih =>
    cases nested with
    | container known upward within =>
      obtain ⟨nested, above⟩ := ih (within _ rfl _ present)
      exact ⟨nested, fun changed reached => upward _ rfl _ present changed (above changed reached)⟩

theorem Nested.reaches_iff {slot : Slot} (nested : Nested workspace slot) {changed : Source} :
    workspace.reaches changed slot.touches = .ok true ↔ Reached workspace changed slot := by
  rw [Workspace.reaches_of_known nested.known, Except.ok.injEq, List.any_eq_true]
  rfl

end Slot

namespace Resolver

open Slot (Nested Reached)

variable {resolver : Resolver}

/-- Slots are nested, and what reaches one of them concerns the given dependencies. -/
def Rises (workspace : Workspace) (touches : List Touch) (slots : Except BuildFault (List Slot)) :
    Prop :=
  ∀ all, slots = .ok all → ∀ slot ∈ all, Nested workspace slot ∧
    ∀ changed, Reached workspace changed slot → ∃ touch ∈ touches,
      workspace.concerns changed touch = true

theorem Rises.distinct {touches : List Touch} {slots : Except BuildFault (List Slot)}
    (rises : Rises resolver.workspace touches slots) (path : Path) :
    Rises resolver.workspace touches (resolver.distinct path slots) :=
  fun all made => rises all (distinct_eq_ok.mp made).1

/-- A container whose dependencies are known. -/
theorem Rises.nested {workspace : Workspace} {touches : List Touch}
    {slots : Except BuildFault (List Slot)}
    (rises : Rises workspace touches slots) (known : ∀ fault, .fault fault ∉ touches)
    (kind : ContainerKind) (name : Name) : Nested workspace (.container kind name touches slots) :=
  .container known (fun all made slot present => (rises all made slot present).2)
    fun all made slot present => (rises all made slot present).1

/-- A slot that is nested among its own dependencies. -/
theorem Rises.single {workspace : Workspace} {slot : Slot} (nested : Nested workspace slot) :
    Rises workspace slot.touches (.ok [slot]) := by
  intro all made other present
  cases made
  rw [List.mem_singleton.mp present]
  exact ⟨nested, fun _ reached => reached⟩

/-- Copies, by induction on the depth. -/
theorem copy_rises (trees : resolver.workspace.Trees) (depth : Nat) : ∀ path source,
    Rises resolver.workspace [.copy source] (resolver.copy depth path source) := by
  induction depth with
  | zero =>
    intro path source all made slot present
    cases made
    cases present
  | succ depth ih =>
    intro path source all made slot present
    obtain ⟨_, _, each⟩ := copy_eq_ok.mp made
    obtain ⟨child, listed, name, _, rfl⟩ := exists_of_mem_right each present
    have above : ∀ changed, resolver.workspace.touchesCopy changed child = true →
        ∃ touch ∈ [Touch.copy source], resolver.workspace.concerns changed touch = true :=
      fun changed touched =>
        ⟨_, List.mem_singleton_self _, touchesCopy_of_child trees listed touched⟩
    unfold childSlot
    split
    · refine ⟨((ih (path.push name) child).distinct (path.push name)).nested
        (by simp) .directory name, ?_⟩
      rintro changed ⟨touch, held, touched⟩
      rw [List.mem_singleton.mp held] at touched
      exact above changed touched
    · refine ⟨.file name child, ?_⟩
      rintro changed ⟨touch, held, touched⟩
      rw [List.mem_singleton.mp held] at touched
      refine above changed ?_
      simp only [Workspace.touchesCopy, Bool.or_eq_true]
      exact .inr touched

theorem joint_rises (trees : resolver.workspace.Trees) :
    Joint resolver resolver fun touches _ slots _ =>
      (∀ fault, .fault fault ∉ touches) → Rises resolver.workspace touches slots where
  nothing path _ all made slot present := by
    cases made
    cases present
  both {touches more path first first' rest rest'} here there known all whole slot present := by
    obtain ⟨ahead, made, same⟩ := bind_ok_iff.mp whole
    obtain ⟨behind, made', same⟩ := bind_ok_iff.mp same
    cases same
    rcases List.mem_append.mp present with present | present
    · have first := here (fun fault held => known fault (List.mem_append_left _ held))
      obtain ⟨nested, upward⟩ := first ahead made slot present
      refine ⟨nested, fun changed reached => ?_⟩
      obtain ⟨touch, held, touched⟩ := upward changed reached
      exact ⟨touch, List.mem_append_left _ held, touched⟩
    · have second := there (fun fault held => known fault (List.mem_append_right _ held))
      obtain ⟨nested, upward⟩ := second behind made' slot present
      refine ⟨nested, fun changed reached => ?_⟩
      obtain ⟨touch, held, touched⟩ := upward changed reached
      exact ⟨touch, List.mem_append_right _ held, touched⟩
  file path source _ all made := by
    unfold sourceSlots at made
    split at made
    · cases made
    · next name named => exact Rises.single (.file name source) all made
  copy path source _ := copy_rises trees _ path source
  container path kind name chain children within known :=
    Rises.single (((within known).distinct (path.push name)).nested known kind name)
  unknown path fault known := absurd (List.mem_singleton_self _) (known fault)

theorem container_nested (resolver : Resolver) (trees : resolver.workspace.Trees) (path : Path)
    {kind : ContainerKind} {name : Name} {chain : List String} {children : Plan}
    (known : ∀ fault, .fault fault ∉ resolver.registry.touches chain children) :
    Nested resolver.workspace (.container kind name (resolver.registry.touches chain children)
      (resolver.distinct path (resolver.place chain path children))) :=
  have rises := (joint_rises trees).place rfl chain path children known
  (rises.distinct path).nested known kind name

/-- Whatever the slot of a recipe encloses is the slot of a recipe, from the outside in. -/
theorem encloses_recipe (trees : resolver.workspace.Trees) {outer inner : Slot}
    (encloses : outer.Encloses inner) : ∀ path recipe, outer = resolver.slot path recipe →
      ∃ path' recipe', inner = resolver.slot path' recipe' := by
  induction encloses with
  | self slot => exact fun path recipe same => ⟨path, recipe, same⟩
  | @inside kind name touches slots slot inner present _ ih =>
    intro path recipe same
    cases recipe with
    | file name source => cases same
    | plan kind name chain children =>
      obtain ⟨placed, _⟩ := distinct_eq_ok.mp (Slot.container.inj same).2.2.2.symm
      obtain ⟨recipe, made⟩ := place_recipes trees placed slot present
      exact ih _ recipe made
    | copy name source =>
      obtain ⟨copied, _⟩ := distinct_eq_ok.mp (Slot.container.inj same).2.2.2.symm
      obtain ⟨recipe, made⟩ := (joint_recipes trees).copy (path.push name) source slots
        copied slot present
      exact ih _ recipe made

end Resolver

/-- All inclusions in the expansion of a plan, whose artifact is the last one of a chain, can be
followed. -/
def Registry.Follows (registry : Registry) (chain : List String) (plan : Plan) : Prop :=
  ∀ chain' name, Occurs registry chain plan chain' (.leaf (.artifact name)) →
    ∃ inner, registry.enter chain' name = .ok inner

theorem Registry.Follows.known {registry : Registry} {chain : List String} {plan : Plan}
    (follows : registry.Follows chain plan) (fault : BuildFault) :
    .fault fault ∉ registry.touches chain plan := by
  have blames : Touch.Blames (fun _ => False) (registry.touches chain plan) := by
    refine Registry.touches_blames chain plan fun chain' name fault occurs failed => ?_
    obtain ⟨inner, entered⟩ := follows chain' name occurs
    cases failed.symm.trans entered
  exact blames fault

end Depot

import Depot.Build.Resolution
import Depot.Proofs.Build.Slots
import Depot.Proofs.Outcome
import Depot.Proofs.Workspace

set_option autoImplicit false

namespace Depot

open Slot (Reached Covered Resolved Layered)

theorem Registry.enter_eq_ok {registry : Registry} {chain : List String} {name : String}
    {plan : Plan} :
    registry.enter chain name = .ok plan ↔
      ∃ artifact, registry.find? name = some artifact ∧ name ∉ chain ∧ artifact.plan = plan := by
  unfold enter
  cases registry.find? name with
  | none => simp
  | some artifact =>
    by_cases repeated : name ∈ chain
    · simp [repeated]
    · simp [repeated]

/-- Induction on a chain, with what holds of the chains in which one more artifact is included. -/
theorem Registry.inclusion_induct (registry : Registry) {motive : List String → Prop}
    (step : ∀ chain,
      (∀ name plan, registry.enter chain name = .ok plan → motive (chain ++ [name])) →
      motive chain) (chain : List String) : motive chain := by
  induction left : registry.unvisited chain using Nat.strongRecOn generalizing chain with
  | ind left' ih =>
    refine step chain fun name plan entered => ?_
    exact ih _ (left ▸ registry.unvisited_lt entered) _ rfl

namespace Resolver

variable {resolver : Resolver}

theorem repeated?_eq_none {path : Path} {seen : List Name} {slots : List Slot} :
    repeated? path seen slots = none ↔
      (slots.map Slot.name).Nodup ∧ ∀ slot ∈ slots, slot.name ∉ seen := by
  induction slots generalizing seen with
  | nil => simp [repeated?]
  | cons slot rest ih =>
    by_cases repeated : slot.name ∈ seen
    · simp [repeated?, repeated]
    · simp only [repeated?, repeated, if_false, ih, List.map_cons, List.nodup_cons, List.mem_cons,
        not_or, List.mem_map, not_exists, not_and]
      constructor
      · rintro ⟨distinct, fresh⟩
        refine ⟨⟨fun other present => (fresh other present).1, distinct⟩, ?_⟩
        rintro other (rfl | present)
        · exact repeated
        · exact (fresh other present).2
      · rintro ⟨⟨apart, distinct⟩, fresh⟩
        exact ⟨distinct, fun other present => ⟨apart other present, fresh other (.inr present)⟩⟩

theorem distinct_eq_ok {path : Path} {contents : Except BuildFault (List Slot)}
    {slots : List Slot} :
    resolver.distinct path contents = .ok slots ↔
      contents = .ok slots ∧ (slots.map Slot.name).Nodup := by
  cases contents with
  | error fault => simp [distinct, bind, Except.bind]
  | ok inner =>
    simp only [distinct, bind, Except.bind, Except.ok.injEq]
    cases found : repeated? path [] inner with
    | none =>
      have distinct := (repeated?_eq_none.mp found).1
      simp only [pure, Except.pure, Except.ok.injEq]
      constructor
      · rintro rfl
        exact ⟨rfl, distinct⟩
      · exact And.left
    | some twice =>
      constructor
      · intro impossible
        cases impossible
      · rintro ⟨rfl, distinct⟩
        have none : repeated? path [] inner = none := repeated?_eq_none.mpr ⟨distinct, by simp⟩
        rw [found] at none
        cases none

/-- The slot for a node in a copied directory, down to the given depth. -/
def childSlot (resolver : Resolver) (depth : Nat) (path : Path) (child : Source)
    (name : Name) : Slot :=
  if resolver.workspace.isDirectory child then
    .container .directory name [.copy child]
      (resolver.distinct (path.push name) (resolver.copy depth (path.push name) child))
  else .file name child

@[simp]
theorem name_childSlot {depth : Nat} {path : Path} {child : Source} {name : Name} :
    (resolver.childSlot depth path child name).name = name := by
  unfold childSlot
  split <;> rfl

theorem childSlot_cases {depth : Nat} {path : Path} {child : Source} {name : Name}
    (resolved : (resolver.childSlot depth path child name).Resolved) :
    (resolver.workspace.isDirectory child = false ∧
      resolver.childSlot depth path child name = .file name child) ∨
    (resolver.workspace.isDirectory child = true ∧
      ∃ slots, resolver.childSlot depth path child name =
          .container .directory name [.copy child] (.ok slots) ∧
        resolver.copy depth (path.push name) child = .ok slots ∧ (slots.map Slot.name).Nodup ∧
        ∀ slot ∈ slots, slot.Resolved) := by
  unfold childSlot at resolved ⊢
  cases kind : resolver.workspace.isDirectory child with
  | false => simp
  | true =>
    simp only [kind, if_true] at resolved ⊢
    cases contents : resolver.distinct (path.push name)
      (resolver.copy depth (path.push name) child) with
    | error fault =>
      rw [contents] at resolved
      cases resolved
    | ok slots =>
      rw [contents] at resolved
      obtain ⟨copied, distinct⟩ := distinct_eq_ok.mp contents
      cases resolved with
      | container inner => exact .inr ⟨trivial, slots, rfl, copied, distinct, inner⟩

theorem copy_eq_ok {depth : Nat} {path : Path} {source : Source} {slots : List Slot} :
    resolver.copy (depth + 1) path source = .ok slots ↔
      resolver.workspace.isLive source = true ∧ resolver.workspace.isDirectory source = true ∧
        List.Forall₂ (fun child slot => ∃ name, resolver.workspace.name child = .ok name ∧
          slot = resolver.childSlot depth path child name)
          (resolver.workspace.children source) slots := by
  simp only [copy]
  cases resolver.workspace.isLive source with
  | false => simp [bind, Except.bind, throw, throwThe, MonadExceptOf.throw]
  | true =>
    cases resolver.workspace.isDirectory source with
    | false => simp [bind, Except.bind, throw, throwThe, MonadExceptOf.throw]
    | true =>
      simp only [Bool.not_true, Bool.false_eq_true, if_false, bind, Except.bind, mapM_ok_iff,
        true_and]
      constructor
      · refine fun each => each.imp fun child slot built => ?_
        cases named : resolver.workspace.name child with
        | error fault => simp [named] at built
        | ok name =>
          refine ⟨name, rfl, ?_⟩
          simp only [named] at built
          unfold childSlot
          split <;> simp_all
      · refine fun each => each.imp ?_
        rintro child slot ⟨name, named, rfl⟩
        simp only [named]
        unfold childSlot
        split <;> rfl

/-- Some slots are layered, and all that reaches them concerns the given dependencies, which are
known. -/
structure Spread (workspace : Workspace) (touches : List Touch) (slots : List Slot) : Prop where
  layered : ∀ slot ∈ slots, Layered workspace slot
  upward : ∀ changed, ∀ slot ∈ slots, Reached workspace changed slot →
    ∃ touch ∈ touches, workspace.concerns changed touch = true
  known : ∀ fault, .fault fault ∉ touches

theorem Spread.container {workspace : Workspace} {touches : List Touch} {slots : List Slot}
    (spread : Spread workspace touches slots) (kind : ContainerKind) (name : Name)
    (distinct : (slots.map Slot.name).Nodup) :
    Layered workspace (.container kind name touches (.ok slots)) :=
  .container spread.known distinct spread.upward spread.layered

/-- What the copy of a directory depends on is what the copies inside depend on, and more. -/
theorem touchesCopy_of_child {workspace : Workspace} (trees : workspace.Trees)
    {changed source child : Source} (listed : child ∈ workspace.children source)
    (touched : workspace.touchesCopy changed child = true) :
    workspace.touchesCopy changed source = true := by
  simp only [Workspace.touchesCopy, Bool.or_eq_true] at touched ⊢
  have beneath := Workspace.isAncestor_parent trees listed
  rcases touched with below | above
  · exact .inl (Workspace.isAncestor_trans beneath below)
  · rcases (Workspace.isAncestor_of_child trees listed).mp above with rfl | above
    · exact .inl beneath
    · exact .inr above

/-- Copies are layered, and a change to a directory or to what holds it covers all of its copy. -/
theorem copy_spread (trees : resolver.workspace.Trees) {depth : Nat} :
    ∀ {path : Path} {source : Source} {slots : List Slot},
      resolver.copy depth path source = .ok slots → (∀ slot ∈ slots, slot.Resolved) →
      Spread resolver.workspace [.copy source] slots ∧
        ∀ changed, resolver.workspace.isAncestor changed source = true →
          ∀ slot ∈ slots, Covered resolver.workspace changed slot := by
  induction depth with
  | zero =>
    intro path source slots copied _
    cases copied
    exact ⟨⟨by simp, by simp, by simp⟩, by simp⟩
  | succ depth ih =>
    intro path source slots copied resolved
    obtain ⟨_, _, each⟩ := copy_eq_ok.mp copied
    have one : ∀ slot ∈ slots, Layered resolver.workspace slot ∧
        (∀ changed, Reached resolver.workspace changed slot →
          resolver.workspace.touchesCopy changed source = true) ∧
        ∀ changed, resolver.workspace.isAncestor changed source = true →
          Covered resolver.workspace changed slot := by
      intro slot present
      obtain ⟨child, listed, name, _, rfl⟩ := exists_of_mem_right each present
      have beneath : ∀ changed, resolver.workspace.isAncestor changed source = true →
          resolver.workspace.isAncestor changed child = true :=
        fun changed above => (Workspace.isAncestor_of_child trees listed).mpr (.inr above)
      rcases childSlot_cases (resolved _ present) with
        ⟨_, same⟩ | ⟨_, inner, same, copied, distinct, innerResolved⟩
      · rw [same]
        refine ⟨.file name child, ?_, fun changed above => ?_⟩
        · rintro changed ⟨touch, held, touched⟩
          rw [List.mem_singleton.mp held] at touched
          refine touchesCopy_of_child trees listed ?_
          simp only [Workspace.touchesCopy, Bool.or_eq_true]
          exact .inr touched
        · exact .file ⟨_, List.mem_singleton_self _, beneath changed above⟩
      · rw [same]
        obtain ⟨spread, covered⟩ := ih copied innerResolved
        refine ⟨spread.container .directory name distinct, ?_, fun changed above => ?_⟩
        · rintro changed ⟨touch, held, touched⟩
          rw [List.mem_singleton.mp held] at touched
          exact touchesCopy_of_child trees listed touched
        · refine .container ⟨_, List.mem_singleton_self _, ?_⟩
            (covered changed (beneath changed above))
          simp only [Workspace.concerns, Workspace.touchesCopy, Bool.or_eq_true]
          exact .inr (beneath changed above)
    refine ⟨⟨fun slot present => (one slot present).1, fun changed slot present reached => ?_,
      by simp⟩, fun changed above slot present => (one slot present).2.2 changed above⟩
    exact ⟨.copy source, List.mem_singleton_self _, (one slot present).2.1 changed reached⟩

theorem childSlot_covered (trees : resolver.workspace.Trees) {depth : Nat} {path : Path}
    {child : Source} {name : Name} (resolved : (resolver.childSlot depth path child name).Resolved)
    {changed : Source} (above : resolver.workspace.isAncestor changed child = true) :
    Covered resolver.workspace changed (resolver.childSlot depth path child name) := by
  rcases childSlot_cases resolved with ⟨_, same⟩ | ⟨_, inner, same, copied, _, innerResolved⟩
  · rw [same]
    exact .file ⟨_, List.mem_singleton_self _, above⟩
  · rw [same]
    refine .container ⟨_, List.mem_singleton_self _, ?_⟩
      ((copy_spread trees copied innerResolved).2 changed above)
    simp only [Workspace.concerns, Workspace.touchesCopy, Bool.or_eq_true]
    exact .inr above

theorem Spread.append {workspace : Workspace} {first second : List Touch} {slots others : List Slot}
    (here : Spread workspace first slots) (there : Spread workspace second others) :
    Spread workspace (first ++ second) (slots ++ others) where
  layered slot present := by
    rcases List.mem_append.mp present with present | present
    · exact here.layered slot present
    · exact there.layered slot present
  upward changed slot present reached := by
    rcases List.mem_append.mp present with present | present
    · obtain ⟨touch, held, touched⟩ := here.upward changed slot present reached
      exact ⟨touch, List.mem_append_left _ held, touched⟩
    · obtain ⟨touch, held, touched⟩ := there.upward changed slot present reached
      exact ⟨touch, List.mem_append_right _ held, touched⟩
  known fault present := by
    rcases List.mem_append.mp present with present | present
    · exact here.known fault present
    · exact there.known fault present

/-- A slot that depends on what it says it depends on. -/
theorem Spread.single {workspace : Workspace} {slot : Slot} (layered : Layered workspace slot) :
    Spread workspace slot.touches [slot] where
  layered _ present := List.mem_singleton.mp present ▸ layered
  upward _ _ present reached := List.mem_singleton.mp present ▸ reached
  known := layered.known

section Expand

variable {touched : String → List Touch}
  {included : Path → String → Except BuildFault (List Slot)}

mutual

/-- The slots of one tree of a plan, given that those of the artifacts in it are layered. -/
theorem expand_spread (trees : resolver.workspace.Trees)
    (spreads : ∀ path name slots, included path name = .ok slots →
      (∀ slot ∈ slots, slot.Resolved) → Spread resolver.workspace (touched name) slots) :
    (tree : Outline Ingredient) → ∀ {path : Path} {slots : List Slot},
    resolver.expand touched included path tree = .ok slots → (∀ slot ∈ slots, slot.Resolved) →
    Spread resolver.workspace (Outline.touches touched tree) slots
  | .leaf (.file source), path, slots, expanded, _ => by
    rw [expand] at expanded
    split at expanded
    · cases expanded
    · cases expanded
      exact .single (.file _ source)
  | .leaf (.artifact name), path, slots, expanded, resolved => by
    rw [expand] at expanded
    exact spreads path name slots expanded resolved
  | .leaf (.copy source), path, slots, expanded, resolved => by
    rw [expand] at expanded
    exact (copy_spread trees expanded resolved).1
  | .container kind name children, path, slots, expanded, resolved => by
    rw [expand] at expanded
    cases expanded
    have outer := resolved _ (List.mem_singleton_self _)
    cases contents : resolver.distinct (path.push name)
      (resolver.expandList touched included (path.push name) children) with
    | error fault =>
      rw [contents] at outer
      cases outer
    | ok inner =>
      rw [contents] at outer
      obtain ⟨listed, distinct⟩ := distinct_eq_ok.mp contents
      cases outer with
      | container resolvedInner =>
        have spread := expandList_spread trees spreads children listed resolvedInner
        exact .single (spread.container kind name distinct)

theorem expandList_spread (trees : resolver.workspace.Trees)
    (spreads : ∀ path name slots, included path name = .ok slots →
      (∀ slot ∈ slots, slot.Resolved) → Spread resolver.workspace (touched name) slots) :
    (plan : List (Outline Ingredient)) → ∀ {path : Path} {slots : List Slot},
    resolver.expandList touched included path plan = .ok slots →
    (∀ slot ∈ slots, slot.Resolved) →
    Spread resolver.workspace (Outline.touchesList touched plan) slots
  | [], path, slots, expanded, _ => by
    rw [expandList] at expanded
    cases expanded
    exact ⟨by simp, by simp, by simp [Outline.touchesList]⟩
  | tree :: rest, path, slots, expanded, resolved => by
    simp only [expandList, bind_ok_iff] at expanded
    obtain ⟨first, here, others, there, result⟩ := expanded
    cases result
    have ahead := expand_spread trees spreads tree here fun slot present =>
      resolved slot (List.mem_append_left _ present)
    have behind := expandList_spread trees spreads rest there fun slot present =>
      resolved slot (List.mem_append_right _ present)
    exact ahead.append behind

end

end Expand

theorem touches_eq (resolver : Resolver) (chain : List String) (plan : Plan) :
    resolver.registry.touches chain plan = Outline.touchesList (resolver.touched chain) plan := by
  rw [Registry.touches]
  congr 1
  funext name
  unfold touched
  split <;> simp_all

/-- Inclusions, by induction on the chain. -/
theorem place_spread (trees : resolver.workspace.Trees) {chain : List String} :
    ∀ {path : Path} {plan : Plan} {slots : List Slot},
      resolver.place chain path plan = .ok slots → (∀ slot ∈ slots, slot.Resolved) →
      Spread resolver.workspace (resolver.registry.touches chain plan) slots := by
  induction chain using resolver.registry.inclusion_induct with
  | step chain ih =>
    intro path plan slots placed resolved
    rw [place] at placed
    rw [touches_eq]
    refine expandList_spread trees ?_ plan placed resolved
    intro path name slots included resolved
    split at included
    · cases included
    · next inner entered =>
      rw [touched, entered]
      exact ih name inner entered included resolved

/-- The output of an artifact as the slot of a directory, whatever this may be called. -/
def rootSlot (resolver : Resolver) (name : Name) (plan : Plan) : Slot :=
  .container .directory name (resolver.registry.touches [resolver.artifact] plan)
    (resolver.slots plan)

theorem rootSlot_cases {name : Name} {plan : Plan}
    (resolved : (resolver.rootSlot name plan).Resolved) :
    ∃ slots, resolver.slots plan = .ok slots ∧
      resolver.place [resolver.artifact] .root plan = .ok slots ∧ (slots.map Slot.name).Nodup ∧
      ∀ slot ∈ slots, slot.Resolved := by
  unfold rootSlot at resolved
  cases contents : resolver.slots plan with
  | error fault =>
    rw [contents] at resolved
    cases resolved
  | ok slots =>
    rw [contents] at resolved
    obtain ⟨placed, distinct⟩ := distinct_eq_ok.mp contents
    cases resolved with
    | container inner => exact ⟨slots, rfl, placed, distinct, inner⟩

theorem rootSlot_layered (trees : resolver.workspace.Trees) {name : Name} {plan : Plan}
    (resolved : (resolver.rootSlot name plan).Resolved) :
    Layered resolver.workspace (resolver.rootSlot name plan) := by
  obtain ⟨slots, contents, placed, distinct, inner⟩ := rootSlot_cases resolved
  rw [rootSlot, contents]
  exact (place_spread trees placed inner).container .directory name distinct

end Resolver

end Depot

import Depot.Proofs.Build.Inclusion
import Depot.Proofs.Build.Inheritance

set_option autoImplicit false

/-
Where the fault of a build comes from: a source that cannot be read, a name that is used twice, a
reference in the expansion of the plan that cannot be followed, or an archive that cannot be
written. So a property of all of these is one of every fault of the build.
-/

namespace Depot

/-- What is not known of some dependencies is due to faults of the given kind. -/
def Touch.Blames (may : BuildFault → Prop) (touches : List Touch) : Prop :=
  ∀ fault, .fault fault ∈ touches → may fault

/-- All faults that a slot carries, at any depth, are of the given kind. -/
inductive Slot.Blames (may : BuildFault → Prop) : Slot → Prop where
  | file (name : Name) (source : Source) : Blames may (.file name source)
  | failed {kind : ContainerKind} {name : Name} {touches : List Touch} {fault : BuildFault}
    (known : Touch.Blames may touches) (own : may fault) :
    Blames may (.container kind name touches (.error fault))
  | container {kind : ContainerKind} {name : Name} {touches : List Touch} {slots : List Slot}
    (known : Touch.Blames may touches) (inner : ∀ slot ∈ slots, Blames may slot) :
    Blames may (.container kind name touches (.ok slots))

/-- The slots of a container carry faults of the given kind, or the fault is that they have instead.
-/
def Slot.BlamesAmong (may : BuildFault → Prop) : Except BuildFault (List Slot) → Prop
  | .ok slots => ∀ slot ∈ slots, Blames may slot
  | .error fault => may fault

/-- Whatever keeps references in the expansion of a plan from being followed is of the given kind.
-/
def BuildFault.Refers (may : BuildFault → Prop) (registry : Registry) (chain : List String)
    (plan : Plan) :
    Prop :=
  ∀ chain' name fault, Occurs registry chain plan chain' (.leaf (.artifact name)) →
    registry.enter chain' name = .error fault → may fault

/-- Among the faults of some kind are those of sources and of names, and those of all references in
the expansion of a plan. -/
structure BuildFault.Covers (may : BuildFault → Prop) (registry : Registry) (chain : List String)
    (plan : Plan) : Prop where
  unreadable : ∀ path reason, may (.unreadable path reason)
  duplicate : ∀ artifact path, may (.duplicateEntry artifact path)
  reference : Refers may registry chain plan

variable {may : BuildFault → Prop}

theorem Slot.Blames.known {slot : Slot} (blames : slot.Blames may) :
    Touch.Blames may slot.touches := by
  cases blames with
  | file name source => exact fun fault present => by simp [Slot.touches] at present
  | failed known _ => exact known
  | container known _ => exact known

theorem Slot.Blames.contents {kind : ContainerKind} {name : Name} {touches : List Touch}
    {contents : Except BuildFault (List Slot)} (known : Touch.Blames may touches)
    (blames : BlamesAmong may contents) : Blames may (.container kind name touches contents) := by
  cases contents with
  | error fault => exact .failed known blames
  | ok slots => exact .container known blames

namespace Outline

variable {included : String → List Touch}

mutual

/-- The dependencies of a tree, given those of the artifacts that it mentions. -/
theorem touches_blames : (tree : Outline Ingredient) →
    (∀ name, Plan.Mentions [tree] name → Touch.Blames may (included name)) →
    Touch.Blames may (touches included tree)
  | leaf (.file source), _, fault, present => by simp [touches] at present
  | leaf (.artifact name), known, fault, present =>
    known name (.here (List.mem_singleton_self _)) fault (by rwa [touches] at present)
  | leaf (.copy source), _, fault, present => by simp [touches] at present
  | container kind label children, known, fault, present =>
    touchesList_blames children
      (fun name within => known name (.inside (List.mem_singleton_self _) within)) fault
      (by rwa [touches] at present)

theorem touchesList_blames : (trees : Plan) →
    (∀ name, trees.Mentions name → Touch.Blames may (included name)) →
    Touch.Blames may (touchesList included trees)
  | [], _, fault, present => by simp [touchesList] at present
  | tree :: rest, known, fault, present => by
    rw [touchesList] at present
    rcases List.mem_append.mp present with here | later
    · exact touches_blames tree (fun name within => known name (within.mono (by simp))) fault here
    · exact touchesList_blames rest (fun name within => known name (within.mono (by simp))) fault
        later

end

end Outline

section Included

variable {registry : Registry} {chain : List String} {plan inner : Plan} {name : String}

/-- The references of an artifact that is included are among those of the plan that mentions it. -/
theorem BuildFault.Refers.included (refers : Refers may registry chain plan)
    (mentions : plan.Mentions name) (entered : registry.enter chain name = .ok inner) :
    Refers may registry (chain ++ [name]) inner := by
  intro chain' other fault occurs failed
  obtain ⟨artifact, found, fresh, rfl⟩ := Registry.enter_eq_ok.mp entered
  exact refers chain' other fault (mentions.occurs.further found fresh occurs) failed

/-- An artifact that is included is covered with the plan that mentions it. -/
theorem BuildFault.Covers.included (covers : Covers may registry chain plan)
    (mentions : plan.Mentions name) (entered : registry.enter chain name = .ok inner) :
    Covers may registry (chain ++ [name]) inner where
  unreadable := covers.unreadable
  duplicate := covers.duplicate
  reference := covers.reference.included mentions entered

end Included

namespace Registry

variable {registry : Registry}

/-- Inclusions, by induction on the chain. -/
theorem touches_blames (chain : List String) :
    ∀ plan, BuildFault.Refers may registry chain plan → Touch.Blames may
      (registry.touches chain plan) := by
  induction chain using registry.inclusion_induct with
  | step chain ih =>
    intro plan refers
    rw [touches]
    refine Outline.touchesList_blames plan fun name mentions fault present => ?_
    split at present
    · next other failed =>
      cases List.mem_singleton.mp present
      exact refers chain name fault mentions.occurs failed
    · next inner entered =>
      exact ih name inner entered inner (refers.included mentions entered) fault present

end Registry

namespace Resolver

open Slot (Blames BlamesAmong)
open BuildFault (Covers)

variable {resolver : Resolver}

theorem touched_blames {chain : List String} {plan : Plan} {name : String}
    (covers : Covers may resolver.registry chain plan) (mentions : plan.Mentions name) :
    Touch.Blames may (resolver.touched chain name) := by
  intro fault present
  unfold touched at present
  split at present
  · next other failed =>
    cases List.mem_singleton.mp present
    exact covers.reference chain name fault mentions.occurs failed
  · next inner entered =>
    exact Registry.touches_blames _ inner (covers.reference.included mentions entered) fault present

theorem distinct_blames (duplicate : ∀ artifact path, may (.duplicateEntry artifact path))
    {contents : Except BuildFault (List Slot)} (blames : BlamesAmong may contents) (path : Path) :
    BlamesAmong may (resolver.distinct path contents) := by
  cases contents with
  | error fault => exact blames
  | ok slots =>
    simp only [distinct, bind, Except.bind]
    cases repeated? path [] slots with
    | none => exact blames
    | some twice => exact duplicate _ twice

/-- What is made for each node of a directory carries faults of the given kind. -/
theorem mapM_blames {step : Source → Except BuildFault Slot} {children : List Source}
    (each : ∀ child slot, step child = .ok slot → slot.Blames may)
    (faults : ∀ child fault, step child = .error fault → may fault) :
    BlamesAmong may (children.mapM step) := by
  induction children with
  | nil =>
    intro slot present
    cases present
  | cons child rest ih =>
    rw [List.mapM_cons]
    cases here : step child with
    | error fault => exact faults child fault here
    | ok slot =>
      cases later : rest.mapM step with
      | error fault =>
        rw [later] at ih
        exact ih
      | ok slots =>
        rw [later] at ih
        intro other present
        rcases List.mem_cons.mp present with rfl | present
        · exact each child other here
        · exact ih other present

/-- Copies, by induction on the depth. -/
theorem copy_blames (unreadable : ∀ path reason, may (.unreadable path reason))
    (duplicate : ∀ artifact path, may (.duplicateEntry artifact path)) {depth : Nat} :
    ∀ {path : Path} {source : Source}, BlamesAmong may (resolver.copy depth path source) := by
  induction depth with
  | zero =>
    intro path source slot present
    cases present
  | succ depth ih =>
    intro path source
    unfold copy
    simp only [bind, Except.bind]
    cases resolver.workspace.isLive source with
    | false => exact unreadable ..
    | true =>
      cases resolver.workspace.isDirectory source with
      | false => exact unreadable ..
      | true =>
        refine mapM_blames (fun child slot made => ?_) fun child fault failed => ?_
        · split at made
          · cases made
          · split at made
            · cases made
              refine .contents (fun fault present => ?_) (distinct_blames duplicate ih _)
              simp at present
            · cases made
              exact .file ..
        · split at failed
          · cases failed
            exact unreadable ..
          · split at failed <;> cases failed

section Expand

variable {touched : String → List Touch}
  {included : Path → String → Except BuildFault (List Slot)}

mutual

/-- The slots of one tree of a plan, given those of the artifacts that it mentions. -/
theorem expand_blames (unreadable : ∀ path reason, may (.unreadable path reason))
    (duplicate : ∀ artifact path, may (.duplicateEntry artifact path)) :
    (tree : Outline Ingredient) →
    (∀ name, Plan.Mentions [tree] name → Touch.Blames may (touched name)) →
    (∀ path name, Plan.Mentions [tree] name → BlamesAmong may (included path name)) →
    ∀ path, BlamesAmong may (resolver.expand touched included path tree)
  | .leaf (.file source), _, _, path => by
    rw [expand]
    split
    · exact unreadable ..
    · intro slot present
      rw [List.mem_singleton.mp present]
      exact .file ..
  | .leaf (.artifact name), _, blames, path => by
    rw [expand]
    exact blames path name (.here (List.mem_singleton_self _))
  | .leaf (.copy source), _, _, path => by
    rw [expand]
    exact copy_blames unreadable duplicate
  | .container kind label children, known, blames, path => by
    have known' := fun name (within : Plan.Mentions children name) =>
      known name (.inside (List.mem_singleton_self _) within)
    have blames' := fun path name (within : Plan.Mentions children name) =>
      blames path name (.inside (List.mem_singleton_self _) within)
    rw [expand]
    intro slot present
    rw [List.mem_singleton.mp present]
    exact .contents (Outline.touchesList_blames children known')
      (distinct_blames duplicate (expandList_blames unreadable duplicate children known' blames' _)
        _)

theorem expandList_blames (unreadable : ∀ path reason, may (.unreadable path reason))
    (duplicate : ∀ artifact path, may (.duplicateEntry artifact path)) : (trees : Plan) →
    (∀ name, trees.Mentions name → Touch.Blames may (touched name)) →
    (∀ path name, trees.Mentions name → BlamesAmong may (included path name)) →
    ∀ path, BlamesAmong may (resolver.expandList touched included path trees)
  | [], _, _, path => by
    rw [expandList]
    intro slot present
    cases present
  | tree :: rest, known, blames, path => by
    have here := expand_blames unreadable duplicate tree
      (fun name within => known name (within.mono (by simp)))
      (fun path name within => blames path name (within.mono (by simp))) path
    have later := expandList_blames unreadable duplicate rest
      (fun name within => known name (within.mono (by simp)))
      (fun path name within => blames path name (within.mono (by simp))) path
    rw [expandList]
    cases first : resolver.expand touched included path tree with
    | error fault =>
      rw [first] at here
      exact here
    | ok slots =>
      rw [first] at here
      cases others : resolver.expandList touched included path rest with
      | error fault =>
        rw [others] at later
        exact later
      | ok more =>
        rw [others] at later
        intro slot present
        rcases List.mem_append.mp present with present | present
        · exact here slot present
        · exact later slot present

end

end Expand

/-- Inclusions, by induction on the chain. -/
theorem place_blames {chain : List String} : ∀ {path : Path} {plan : Plan},
    Covers may resolver.registry chain plan → BlamesAmong may (resolver.place chain path plan) := by
  induction chain using resolver.registry.inclusion_induct with
  | step chain ih =>
    intro path plan covers
    rw [place]
    refine expandList_blames covers.unreadable covers.duplicate plan
      (fun name mentions => touched_blames covers mentions) (fun path name mentions => ?_) path
    split
    · next fault failed => exact covers.reference chain name fault mentions.occurs failed
    · next inner entered => exact ih name inner entered (covers.included mentions entered)

theorem slots_blames {plan : Plan}
    (covers : Covers may resolver.registry [resolver.artifact] plan) :
    BlamesAmong may (resolver.slots plan) :=
  distinct_blames covers.duplicate (place_blames covers) _

end Resolver

theorem Workspace.reaches_blames {workspace : Workspace} {changed : Source} {touches : List Touch}
    (known : Touch.Blames may touches) {fault : BuildFault}
    (failed : workspace.reaches changed touches = .error fault) : may fault := by
  induction touches with
  | nil => cases failed
  | cons touch rest ih =>
    have later := ih fun other present => known other (List.mem_cons_of_mem _ present)
    cases touch with
    | fault other =>
      cases failed
      exact known fault List.mem_cons_self
    | file source =>
      rw [reaches] at failed
      split at failed
      · cases failed
      · exact later failed
    | copy source =>
      rw [reaches] at failed
      split at failed
      · cases failed
      · exact later failed

namespace Assembler

open Slot (Separate Blames BlamesAmong)

variable {assembler : Assembler} {scope : Scope} {path : Path} {previous : Option (List Entry)}

theorem reached_blames {touches : List Touch} (known : Touch.Blames may touches)
    {fault : BuildFault} (failed : assembler.reached scope touches = .error fault) : may fault := by
  cases scope with
  | everything => cases failed
  | stale => cases failed
  | changed source => exact Workspace.reaches_blames known failed

/-- Entries of the given sort are made of such entries, and so the faults of archives are of the
given kind. -/
structure Accounts (assembler : Assembler) (may : BuildFault → Prop) (sort : Entry → Prop) :
    Prop where
  inherits : Inherits assembler sort sort
  unreadable : ∀ path reason, may (.unreadable path reason)
  archive : ∀ path name before members fault, (members.map Entry.name).Nodup →
    (∀ member ∈ members, sort member) → assembler.archive path name before members = .error fault →
    may fault

variable {sort : Entry → Prop}

/-- Whatever a slot is built from, a fault of the build is of the given kind. -/
def Fails (assembler : Assembler) (may : BuildFault → Prop) (sort : Entry → Prop)
    (slot : Slot) : Prop :=
  ∀ scope path before? fault, (∀ before ∈ before?, sort before) →
    assembler.entry scope path before? slot = .error fault → may fault

theorem contribution_blames {slot : Slot} (blames : slot.Blames may)
    (fails : Fails assembler may sort slot)
    (olds : ∀ members ∈ previous, ∀ member ∈ members, sort member) {fault : BuildFault}
    (failed : assembler.contribution scope path previous slot = .error fault) : may fault := by
  have before := former_inherits olds slot
  rcases bind_error_iff.mp failed with unknown | ⟨reached, _, failed⟩
  · exact reached_blames blames.known unknown
  · split at failed
    · rcases bind_error_iff.mp failed with failed | ⟨_, _, failed⟩
      · exact fails _ _ _ _ before failed
      · cases failed
    · split at failed
      · cases failed
      · rcases bind_error_iff.mp failed with failed | ⟨_, _, failed⟩
        · exact fails _ _ _ _ (by simp) failed
        · cases failed
      · cases failed

theorem entries_blames {slots : List Slot} (blames : ∀ slot ∈ slots, slot.Blames may)
    (fails : ∀ slot ∈ slots, Fails assembler may sort slot)
    (olds : ∀ members ∈ previous, ∀ member ∈ members, sort member) {fault : BuildFault}
    (failed : assembler.entries scope path previous slots = .error fault) : may fault := by
  induction slots with
  | nil => cases failed
  | cons slot rest ih =>
    rw [entries_cons] at failed
    rcases bind_error_iff.mp failed with here | ⟨_, _, failed⟩
    · exact contribution_blames (blames slot List.mem_cons_self)
        (fails slot List.mem_cons_self) olds here
    · rcases bind_error_iff.mp failed with later | ⟨_, _, failed⟩
      · exact ih (fun slot present => blames slot (List.mem_cons_of_mem _ present))
          (fun slot present => fails slot (List.mem_cons_of_mem _ present)) later
      · cases failed

variable (accounts : Accounts assembler may sort)

include accounts

/-- By induction on the slot. -/
theorem entry_blames (slot : Slot) (separate : Separate slot) (blames : slot.Blames may) :
    Fails assembler may sort slot := by
  induction slot using Slot.induct with
  | file name source =>
    intro scope path before? fault _ failed
    simp only [entry, file] at failed
    split at failed
    · cases failed
    · split at failed
      · cases failed
      · cases failed
        exact accounts.unreadable ..
  | failed kind name touches fault =>
    intro scope path before? other _ failed
    cases blames with
    | failed _ own =>
      cases kind <;>
      · simp only [entry, container, bind, Except.bind] at failed
        cases failed
        exact own
  | container kind name touches slots ih =>
    intro scope path before? fault olds failed
    obtain ⟨distinct, separateEach⟩ := separate.inside
    have blamesEach : ∀ slot ∈ slots, slot.Blames may := by
      cases blames with
      | container _ inner => exact inner
    have remembers : ∀ before ∈ remembered scope before?, sort before :=
      fun before held => olds before (mem_remembered held)
    have inner := @inside?_inherits assembler sort sort accounts.inherits kind _ remembers
    have inside := @entries_blames may assembler scope (path.push name)
      (inside? kind (remembered scope before?)) sort slots blamesEach
      (fun slot present => ih slot present (separateEach slot present) (blamesEach slot present))
        inner
    cases kind with
    | directory =>
      simp only [entry, container] at failed
      rcases bind_error_iff.mp failed with failed | ⟨_, _, failed⟩
      · exact inside failed
      · cases failed
    | archive =>
      simp only [entry, container] at failed
      rcases bind_error_iff.mp failed with failed | ⟨⟨members, work⟩, built, failed⟩
      · exact inside failed
      · have names : (members.map Entry.name).Nodup := (entries_names built).1.nodup distinct
        have news := entries_inherit (fun slot present => hands accounts.inherits slot
          (separateEach slot present)) (fun _ old => old) inner built
        rcases bind_error_iff.mp failed with failed | ⟨_, _, failed⟩
        · exact accounts.archive _ _ _ _ _ names news failed
        · cases failed

/-- A property of all that can go wrong is one of the fault of a build. -/
theorem output_blames {plan : Plan}
    (covers : BuildFault.Covers may assembler.registry [assembler.artifact] plan)
    (olds : ∀ members ∈ previous, ∀ member ∈ members, sort member)
    {fault : BuildFault} (failed : assembler.output scope plan previous = .error fault) :
    may fault := by
  have blames := @Resolver.slots_blames may assembler.resolver plan covers
  unfold output at failed
  cases resolved : assembler.resolver.slots plan with
  | error other =>
    rw [resolved] at blames failed
    cases failed
    exact blames
  | ok slots =>
    rw [resolved] at blames failed
    obtain ⟨_, separate⟩ := Resolver.slots_separate resolved
    exact entries_blames blames
      (fun slot present => entry_blames accounts slot (separate slot present) (blames slot present))
        olds
      failed

end Assembler

end Depot

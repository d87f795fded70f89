import Depot.Proofs.Build.Carried
import Depot.Proofs.Build.Upward
import Depot.Proofs.Workspace.History
import Depot.Sample

set_option autoImplicit false

namespace Depot

namespace FileSystem

/-- What reading a node gives. -/
theorem read_eq (fs : FileSystem) (id : NodeId) :
    fs.read id =
      if fs.isLive id = false then .error (.deleted (fs.path id))
      else
        match fs.file? id with
        | some (bytes, _) => .ok bytes
        | none => .error (.isADirectory (fs.path id)) := by
  unfold read liveNode isLive file?
  cases fs.node? id with
  | none => rfl
  | some node =>
    obtain ⟨place?, content, stamp, writable, live⟩ := node
    cases live <;> cases content <;> rfl

end FileSystem

namespace Workspace

theorem isAncestor_total {workspace : Workspace} {left right source : Source}
    (first : workspace.isAncestor left source = true)
    (second : workspace.isAncestor right source = true) :
    workspace.isAncestor left right = true ∨ workspace.isAncestor right left = true := by
  obtain ⟨volume, first⟩ := isAncestor_iff.mp first
  obtain ⟨volume', second⟩ := isAncestor_iff.mp second
  rw [isAncestor_iff, isAncestor_iff, home, home, volume, volume']
  exact (FileSystem.isAncestor_total first second).imp (fun above => ⟨rfl, above⟩)
    fun above => ⟨rfl, above⟩

/-- The node of a source was created. It may have been deleted since. -/
def Created (workspace : Workspace) (source : Source) : Prop :=
  source.node < (workspace.home source).nodes.length

instance (workspace : Workspace) (source : Source) : Decidable (workspace.Created source) :=
  inferInstanceAs (Decidable (_ < _))

/-- What can be seen of a source, apart from what it lists, is the same in two workspaces. -/
structure Steady (before after : Workspace) (source : Source) : Prop where
  name : after.name source = before.name source
  path : after.path source = before.path source
  live : after.isLive source = before.isLive source
  kind : after.isDirectory source = before.isDirectory source
  file : after.file? source = before.file? source

theorem Steady.read {before after : Workspace} {source : Source}
    (steady : Steady before after source) :
    after.read source = before.read source := by
  have path := steady.path
  have live := steady.live
  have file := steady.file
  unfold Workspace.read
  rw [FileSystem.read_eq, FileSystem.read_eq]
  unfold Workspace.path at path
  unfold Workspace.isLive at live
  unfold Workspace.file? at file
  rw [path, live, file]

theorem Steady.stamp {before after : Workspace} {source : Source}
    (steady : Steady before after source)
    {content : Bytes} (read : before.read source = .ok content) :
    after.stamp source = before.stamp source := by
  have shown := (read_eq_ok.mp read).2
  have shown' := (read_eq_ok.mp (steady.read.trans read)).2
  rw [steady.file, shown, Option.some_inj] at shown'
  exact (congrArg Prod.snd shown').symm

/-- Between two workspaces only a node that was there and nodes below it were touched. -/
structure Confined (changed : Source) (before after : Workspace) : Prop where
  created : before.Created changed
  evolves : ∃ touched, Evolves touched before after ∧
    ∀ cause ∈ touched, after.isAncestor changed cause = true

namespace Confined

variable {changed : Source} {before after : Workspace} (confined : Confined changed before after)
  {source child : Source}

include confined

theorem isAncestor_eq (created : before.Created source) (ancestor : Source) :
    after.isAncestor ancestor source = before.isAncestor ancestor source := by
  obtain ⟨touched, evolves, _⟩ := confined.evolves
  rw [isAncestor, isAncestor, home, (evolves.follows source.volume).isAncestor created, home]

/-- What the node does not hold is the same. -/
theorem steady (created : before.Created source)
    (apart : before.isAncestor changed source = false) :
    Steady before after source := by
  obtain ⟨touched, evolves, beneath⟩ := confined.evolves
  have follows := evolves.follows source.volume
  have untouched : ∀ other, after.isAncestor other source = true → other ∉ touched := by
    intro other above present
    have around := isAncestor_trans (beneath other present) above
    rw [confined.isAncestor_eq created, apart] at around
    cases around
  have place : ∀ other, (after.home source).isAncestor other source.node = true →
      (after.home source).place? other = (before.home source).place? other := by
    intro other above
    have inside : other < (before.home source).nodes.length :=
      Nat.lt_of_le_of_lt (FileSystem.le_of_isAncestor above) created
    refine follows.place other inside fun present => ?_
    exact untouched ⟨source.volume, other⟩ (isAncestor_iff.mpr ⟨rfl, above⟩)
      (mem_touched.mp present)
  have own := not_mem_touched (untouched source (isAncestor_self source))
  refine ⟨?_, congrArg Path.mk (FileSystem.names_of_holders place), ?_, follows.kind _ created,
    follows.file _ created own⟩
  · rw [Workspace.name, Workspace.name, FileSystem.name, FileSystem.name,
      place source.node (FileSystem.isAncestor_self _)]
  · cases now : after.isLive source with
    | true => exact (follows.live _ created now).symm
    | false =>
      cases was : before.isLive source with
      | false => rfl
      | true =>
        obtain ⟨cause, present, above⟩ := follows.killed _ was now
        exact absurd (mem_touched.mp present)
          (untouched ⟨source.volume, cause⟩ (isAncestor_iff.mpr ⟨rfl, above⟩))

/-- A directory that neither holds the node nor is held by it lists the same. -/
theorem children_eq (apart : before.touchesCopy changed source = false)
    (alive : before.isLive source = true) :
    after.children source = before.children source := by
  obtain ⟨below, above⟩ := Bool.or_eq_false_iff.mp apart
  have created : before.Created source := FileSystem.lt_length_of_isLive alive
  have alive' : after.isLive source = true := (confined.steady created above).live.trans alive
  obtain ⟨touched, evolves, beneath⟩ := confined.evolves
  refine evolves.children_eq alive alive' fun cause present => ?_
  rw [← confined.isAncestor_eq confined.created] at below
  rw [← confined.isAncestor_eq created] at above
  have held := beneath cause present
  refine Bool.or_eq_false_iff.mpr ⟨Bool.eq_false_iff.mpr fun holds => ?_, Bool.eq_false_iff.mpr
    fun held' => ?_⟩
  · rcases isAncestor_total held holds with around | around
    · rw [above] at around
      cases around
    · rw [below] at around
      cases around
  · rw [isAncestor_trans held held'] at above
    cases above

end Confined

end Workspace

open Workspace (Confined)

/-- A dependency that does not reach: its node was created, and a change does not concern it. -/
def Touch.Aloof (workspace : Workspace) (changed : Source) : Touch → Prop
  | .file source => workspace.Created source ∧ workspace.touchesFile changed source = false
  | .copy source => workspace.Created source ∧ workspace.touchesCopy changed source = false
  | .fault _ => False

/-- The sources that some dependencies name were created. -/
def Touch.Created (workspace : Workspace) (touches : List Touch) : Prop :=
  ∀ source, .file source ∈ touches ∨ .copy source ∈ touches → workspace.Created source

theorem Workspace.reaches_eq_false {workspace : Workspace} {changed : Source} {touches : List Touch}
    (unreached : workspace.reaches changed touches = .ok false)
    (created : Touch.Created workspace touches) : ∀ touch ∈ touches,
      touch.Aloof workspace changed := by
  induction touches with
  | nil => exact fun touch present => nomatch present
  | cons first rest ih =>
    have later : Touch.Created workspace rest := fun source held => created source (by
      rcases held with held | held
      · exact .inl (List.mem_cons_of_mem _ held)
      · exact .inr (List.mem_cons_of_mem _ held))
    cases first with
    | fault fault => cases unreached
    | file source =>
      rw [reaches] at unreached
      split at unreached
      · cases unreached
      · next apart =>
        exact List.forall_mem_cons.mpr
          ⟨⟨created source (.inl List.mem_cons_self), by simpa using apart⟩, ih unreached later⟩
    | copy source =>
      rw [reaches] at unreached
      split at unreached
      · cases unreached
      · next apart =>
        exact List.forall_mem_cons.mpr
          ⟨⟨created source (.inr List.mem_cons_self), by simpa using apart⟩, ih unreached later⟩

/-- Dependencies that a change does not concern are not concerned afterwards either. -/
theorem Workspace.Confined.reaches_eq {changed : Source} {before after : Workspace}
    (confined : Confined changed before after) {touches : List Touch}
    (aloof : ∀ touch ∈ touches, touch.Aloof before changed) :
    after.reaches changed touches = before.reaches changed touches := by
  induction touches with
  | nil => rfl
  | cons first rest ih =>
    have later := ih fun touch present => aloof touch (List.mem_cons_of_mem _ present)
    have here := aloof first List.mem_cons_self
    cases first with
    | fault fault => exact here.elim
    | file source => rw [reaches, reaches, later, touchesFile, touchesFile,
      confined.isAncestor_eq here.1]
    | copy source =>
      rw [reaches, reaches, later, touchesCopy, touchesCopy, confined.isAncestor_eq here.1,
        confined.isAncestor_eq confined.created]

/-- The files in a slot, at any depth, are the same in two workspaces. -/
inductive Slot.Steady (before after : Workspace) : Slot → Prop where
  | file (name : Name) {source : Source} (steady : Workspace.Steady before after source) :
    Steady before after (.file name source)
  | container {kind : ContainerKind} {name : Name} {touches : List Touch}
    {contents : Except BuildFault (List Slot)}
    (inner : ∀ slots, contents = .ok slots → ∀ slot ∈ slots, Steady before after slot) :
    Steady before after (.container kind name touches contents)

namespace Resolver

variable {changed : Source} {before after : Workspace} {registry : Registry} {artifact : String}

/-- The slots are the same as before, and so are the files in them. -/
def Stays (before after : Workspace) (olds news : Except BuildFault (List Slot)) : Prop :=
  news = olds ∧ ∀ slots, olds = .ok slots → ∀ slot ∈ slots, Slot.Steady before after slot

theorem Stays.distinct {path : Path} {olds news : Except BuildFault (List Slot)}
    (stays : Stays before after olds news) :
    Stays before after (Resolver.distinct ⟨before, registry, artifact⟩ path olds)
      (Resolver.distinct ⟨after, registry, artifact⟩ path news) :=
  ⟨congrArg (Resolver.distinct ⟨before, registry, artifact⟩ path) stays.1,
    fun slots made => stays.2 slots (distinct_eq_ok.mp made).1⟩

theorem Stays.container {path : Path} {olds news : Except BuildFault (List Slot)}
    (kind : ContainerKind)
    (name : Name) (touches : List Touch) (stays : Stays before after olds news) :
    Slot.container kind name touches (Resolver.distinct ⟨after, registry, artifact⟩ path news) =
        .container kind name touches (Resolver.distinct ⟨before, registry, artifact⟩ path olds) ∧
      Slot.Steady before after
        (.container kind name touches (Resolver.distinct ⟨before, registry, artifact⟩ path olds)) :=
          by
  obtain ⟨same, steady⟩ := @Stays.distinct _ _ registry artifact path _ _ stays
  exact ⟨congrArg (Slot.container kind name touches) same, .container steady⟩

theorem Stays.single {old new : Slot} (stays : new = old ∧ Slot.Steady before after old) :
    Stays before after (.ok [old]) (.ok [new]) := by
  refine ⟨by rw [stays.1], fun slots made slot present => ?_⟩
  cases made
  rw [List.mem_singleton.mp present]
  exact stays.2

/-- Copies, by induction on the depth. -/
theorem copy_stays (confined : Confined changed before after) (depth : Nat) : ∀ path source,
    before.Created source → before.touchesCopy changed source = false →
    Stays before after (copy ⟨before, registry, artifact⟩ depth path source)
      (copy ⟨after, registry, artifact⟩ depth path source) := by
  induction depth with
  | zero =>
    intro path source _ _
    exact ⟨rfl, fun slots made slot present => by cases made; cases present⟩
  | succ depth ih =>
    intro path source created apart
    have trees : before.Trees := confined.evolves.choose_spec.1.earlier
    have steady := confined.steady created (Bool.or_eq_false_iff.mp apart).2
    have inside : ∀ child ∈ before.children source,
        before.Created child ∧ before.touchesCopy changed child = false := by
      intro child listed
      have tree : FileSystem.Tree (before.home source) := trees source.volume
      have held := (tree.listed source.node child.node (Workspace.mem_children.mp listed).2).1
      obtain ⟨name, placed⟩ := FileSystem.parent?_eq_some.mp held
      refine ⟨?_, Bool.eq_false_iff.mpr fun touched => ?_⟩
      · rw [Workspace.Created, Workspace.home_child listed]
        exact FileSystem.lt_length_of_place placed
      · rw [touchesCopy_of_child trees listed touched] at apart
        cases apart
    have child_steady : ∀ child ∈ before.children source, Workspace.Steady before after child :=
      fun child listed =>
        confined.steady (inside child listed).1 (Bool.or_eq_false_iff.mp (inside child listed).2).2
    have inner (path : Path) (child : Source) (listed : child ∈ before.children source) :=
      ih path child (inside child listed).1 (inside child listed).2
    constructor
    · rw [copy_succ, copy_succ, steady.live, steady.kind, steady.path]
      cases alive : before.isLive source with
      | false => rfl
      | true =>
        cases before.isDirectory source with
        | false => rfl
        | true =>
          simp only [confined.children_eq apart alive, Bool.true_eq_false, if_false]
          refine mapM_congr fun child listed => ?_
          have same := child_steady child listed
          have contents (path : Path) := (@Stays.distinct _ _ registry artifact path _ _
            (inner path child listed)).1
          unfold copied childSlot
          simp only [same.name, same.path, same.kind, contents]
    · intro slots made slot present
      obtain ⟨_, _, each⟩ := copy_eq_ok.mp made
      obtain ⟨child, listed, name, _, rfl⟩ := exists_of_mem_right each present
      unfold childSlot
      split
      · exact .container ((inner _ child listed).distinct).2
      · exact .file name (child_steady child listed)

/-- There may be more nodes than before, but not below the directory that is copied. -/
theorem copyAll_stays (confined : Confined changed before after) (path : Path) {source : Source}
    (created : before.Created source) (apart : before.touchesCopy changed source = false) :
    Stays before after (copyAll ⟨before, registry, artifact⟩ path source)
      (copyAll ⟨after, registry, artifact⟩ path source) := by
  obtain ⟨touched, evolves, _⟩ := confined.evolves
  have grows := (evolves.follows source.volume).grows
  obtain ⟨extra, count⟩ := Nat.exists_eq_add_of_le grows
  have levels : (after.home source).nodes.length = (before.home source).nodes.length + extra :=
    count
  have deep := @copy_deep ⟨before, registry, artifact⟩ evolves.earlier
    (before.home source).nodes.length extra path source (Nat.le_add_right _ _)
  have stays := @copy_stays changed before after registry artifact confined
    ((before.home source).nodes.length + extra + 1) path source created apart
  rw [deep] at stays
  rw [copyAll, copyAll, levels]
  exact stays

theorem joint_stays (confined : Confined changed before after) :
    Joint ⟨before, registry, artifact⟩ ⟨after, registry, artifact⟩ fun touches _ olds news =>
      (∀ touch ∈ touches, touch.Aloof before changed) → Stays before after olds news where
  nothing path _ := ⟨rfl, fun slots made slot present => by cases made; cases present⟩
  both {touches more path first first' rest rest'} here there aloof := by
    obtain ⟨same, steady⟩ := here fun touch held => aloof touch (List.mem_append_left _ held)
    obtain ⟨same', steady'⟩ := there fun touch held => aloof touch (List.mem_append_right _ held)
    refine ⟨by rw [same, same'], fun slots whole slot present => ?_⟩
    obtain ⟨ahead, made, whole⟩ := bind_ok_iff.mp whole
    obtain ⟨behind, made', whole⟩ := bind_ok_iff.mp whole
    cases whole
    rcases List.mem_append.mp present with present | present
    · exact steady ahead made slot present
    · exact steady' behind made' slot present
  file path source aloof := by
    obtain ⟨created, apart⟩ := aloof _ (List.mem_singleton_self _)
    have steady := confined.steady created apart
    unfold sourceSlots
    simp only [steady.name, steady.path]
    refine ⟨rfl, fun slots made slot present => ?_⟩
    split at made
    · cases made
    · next name named =>
      cases made
      rw [List.mem_singleton.mp present]
      exact .file name steady
  copy path source aloof :=
    have ⟨created, apart⟩ := aloof _ (List.mem_singleton_self _)
    copyAll_stays confined path created apart
  container path kind name chain children within aloof :=
    .single ((within aloof).container kind name _)
  unknown path fault aloof := (aloof _ (List.mem_singleton_self _)).elim

/-- A slot that is not reached is expanded to the same as before. -/
theorem slot_stays (confined : Confined changed before after) (path : Path) (recipe : Recipe)
    (aloof : ∀ touch ∈ (slot ⟨before, registry, artifact⟩ path recipe).touches,
      touch.Aloof before changed) :
    slot ⟨after, registry, artifact⟩ path recipe = slot ⟨before, registry, artifact⟩ path recipe ∧
      Slot.Steady before after (slot ⟨before, registry, artifact⟩ path recipe) := by
  cases recipe with
  | file name source =>
    obtain ⟨created, apart⟩ := aloof _ (List.mem_singleton_self _)
    exact ⟨rfl, .file name (confined.steady created apart)⟩
  | plan kind name chain children =>
    have stays := (joint_stays confined).place rfl chain (path.push name) children aloof
    exact stays.container kind name _
  | copy name source =>
    obtain ⟨created, apart⟩ := aloof _ (List.mem_singleton_self _)
    exact (copyAll_stays confined (path.push name) created apart).container .directory name _

end Resolver

namespace Assembler

variable {before after : Workspace} (tools : Assembler)

theorem entries_undisturbed {slots : List Slot}
    (each : ∀ slot ∈ slots, ∀ path before?, (tools.within after).entry .everything path
      before? slot =
      (tools.within before).entry .everything path before? slot) (path : Path)
        (previous : Option (List Entry)) :
    (tools.within after).entries .everything path previous slots =
      (tools.within before).entries .everything path previous slots := by
  induction slots with
  | nil => rfl
  | cons slot rest ih =>
    rw [entries_cons, entries_cons, contribution_everything, contribution_everything,
      each slot List.mem_cons_self, ih fun slot present =>
        each slot (List.mem_cons_of_mem _ present)]

/-- Slots with the same files are built to the same, by induction on the slot. -/
theorem entry_undisturbed {slot : Slot} (steady : slot.Steady before after) : ∀ path before?,
    (tools.within after).entry .everything path before? slot =
      (tools.within before).entry .everything path before? slot := by
  induction slot using Slot.induct with
  | file name source =>
    intro path before?
    cases steady with
    | file _ steady =>
      have read : (tools.within after).workspace.read source =
          (tools.within before).workspace.read source :=
        steady.read
      have path : (tools.within after).workspace.path source =
          (tools.within before).workspace.path source :=
        steady.path
      simp only [entry, file, current?, read, path]
      cases shown : (tools.within before).workspace.read source with
      | error fault => rfl
      | ok content =>
        have stamp : (tools.within after).workspace.stamp source =
            (tools.within before).workspace.stamp source :=
          steady.stamp shown
        simp only [stamp]
        rfl
  | failed kind name touches fault =>
    intro path before?
    cases kind <;> rfl
  | container kind name touches slots ih =>
    intro path before?
    cases steady with
    | container inner =>
      have each : ∀ slot ∈ slots, ∀ path before?, (tools.within after).entry .everything path
        before? slot =
          (tools.within before).entry .everything path before? slot :=
        fun slot present => ih slot present (inner slots rfl slot present)
      have same := tools.entries_undisturbed each (path.push name) none
      cases kind with
      | directory => simp only [entry, container, remembered, directoryBefore, same]; rfl
      | archive => simp only [entry, container, remembered, archiveBefore,
        Option.map_none, same]; rfl

/-- The test whether a slot depends on a node is closed upwards: where all inclusions can be
followed, what reaches a slot at any depth of a container reaches all slots around it, so that a
walk that skips what is not reached misses nothing. And it is sound: if only the node and nodes
below it are touched, a slot that the node does not reach is not reached afterwards either, and a
full build makes the same of it. All slots inside are made by recipes, so that this goes for slots
at every depth. -/
theorem reaches_sound (count : Nat) (first second : List Request) (changed : Source) :
    let before := ((Sessions.start count).run first).workspace
    let after := ((Sessions.start count).run (first ++ second)).workspace
    let old := (tools.within before).resolver
    let new := (tools.within after).resolver
    (∀ path kind name chain children, tools.registry.Follows chain children →
      let container := Slot.container kind name (tools.registry.touches chain children)
        (old.distinct path (old.place chain path children))
      (∀ outer inner, container.Encloses outer → outer.Encloses inner →
        before.reaches changed inner.touches = .ok true →
          before.reaches changed outer.touches = .ok true) ∧
      container.walk (before.visits changed) = container.all.filter (before.visits changed)) ∧
    (before.Created changed →
      (∀ cause ∈ ((Sessions.start count).run first).touched second,
        after.isAncestor changed cause = true) →
      ∀ path recipe, Touch.Created before (old.slot path recipe).touches →
        before.reaches changed (old.slot path recipe).touches = .ok false →
        after.reaches changed (new.slot path recipe).touches = .ok false ∧
          (tools.within after).entry .everything path none (new.slot path recipe) =
            (tools.within before).entry .everything path none (old.slot path recipe)) ∧
    ∀ path recipe inner, (old.slot path recipe).Encloses inner →
      ∃ path' recipe', inner = old.slot path' recipe' := by
  intro before after old new
  have evolves : Workspace.Evolves (((Sessions.start count).run first).touched second)
      before after := by
    have later :=
      Workspace.run_evolves (Workspace.run_evolves (Sessions.start_trees count) first).later second
    rwa [← Sessions.run_append] at later
  have trees : before.Trees := evolves.earlier
  refine ⟨fun path kind name chain children follows => ?_,
    fun created beneath path recipe there unreached => ?_,
    fun path recipe inner encloses => Resolver.encloses_recipe trees encloses path recipe rfl⟩
  · intro container
    have nested : container.Nested before := old.container_nested trees path follows.known
    have upward : ∀ outer inner, container.Encloses outer → outer.Encloses inner →
        before.reaches changed inner.touches = .ok true →
          before.reaches changed outer.touches = .ok true := by
      intro outer inner around within reached
      have outside := (nested.encloses around).1
      obtain ⟨inside, above⟩ := outside.encloses within
      exact outside.reaches_iff.mpr (above changed (inside.reaches_iff.mp reached))
    refine ⟨upward, Slot.walk_eq_filter fun outer inner around within visited => ?_⟩
    rw [Workspace.visits_iff] at visited ⊢
    exact upward outer inner around within visited
  · have confined : Workspace.Confined changed before after := ⟨created, _, evolves, beneath⟩
    have aloof := Workspace.reaches_eq_false unreached there
    obtain ⟨same, steady⟩ := Resolver.slot_stays confined path recipe aloof
    have same : new.slot path recipe = old.slot path recipe := same
    refine ⟨?_, ?_⟩
    · rw [same, confined.reaches_eq aloof, unreached]
    · rw [same]
      exact tools.entry_undisturbed steady path none

end Assembler

namespace Sample

/-- Creates a file in a directory and one beside it. -/
def writing : List Request :=
  [⟨0, .createFile "site/index" text⟩, ⟨0, .createFile "notes" empty⟩]

/-- Gives the file beside the directory another content and then deletes it. -/
def discarding : List Request :=
  [⟨0, .setContent 3 "user" newText true⟩, ⟨0, .delete 3 "user"⟩]

/-- A build without any artifacts to include. -/
def plain : Assembler :=
  ⟨[], .empty, Digest.blake3, Archive.Compression.Codec.stored, .none, "app"⟩

def packing : Recipe :=
  .plan .archive ⟨Bytes.ofString "site.zip", by decide⟩ ["app"] [.leaf (.copy ⟨0, 1⟩)]

end Sample

open Sample in
/-- The file beside the directory is not in the archive, which comes out the same without it. -/
theorem Assembler.reaches_sound_discarded :
    let before := ((Sessions.start 1).run writing).workspace
    let after := ((Sessions.start 1).run (writing ++ discarding)).workspace
    before.reaches ⟨0, 3⟩ ((plain.within before).resolver.slot .root packing).touches = .ok false ∧
      (plain.within after).entry .everything .root none
        ((plain.within after).resolver.slot .root packing) =
        (plain.within before).entry .everything .root none
          ((plain.within before).resolver.slot .root packing) := by
  intro before after
  have created : ((Sessions.start 1).run writing).workspace.Created ⟨0, 3⟩ := by decide +kernel
  have beneath : ∀ cause ∈ ((Sessions.start 1).run writing).touched discarding,
      ((Sessions.start 1).run (writing ++ discarding)).workspace.isAncestor ⟨0, 3⟩ cause =
        true := by
    decide +kernel
  have named : ((plain.within before).resolver.slot .root packing).touches = [.copy ⟨0, 1⟩] := by
    show plain.registry.touches _ _ = _
    rw [Registry.touches]
    rfl
  have there :
      Touch.Created before ((plain.within before).resolver.slot .root packing).touches := by
    intro source held
    have only : source = ⟨0, 1⟩ := by simpa [named] using held
    rw [only]
    decide +kernel
  have unreached :
    before.reaches ⟨0, 3⟩ ((plain.within before).resolver.slot .root packing).touches =
      .ok false := by
    rw [named]
    decide +kernel
  obtain ⟨_, sound, _⟩ := plain.reaches_sound 1 writing discarding ⟨0, 3⟩
  exact ⟨unreached, (sound created beneath .root packing there unreached).2⟩

end Depot

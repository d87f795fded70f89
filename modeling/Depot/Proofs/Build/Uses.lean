import Depot.Proofs.Build.Complete
import Depot.Proofs.Build.Layers

set_option autoImplicit false

namespace Depot

open Slot (Reached Layered Resolved)

namespace Workspace

variable {workspace : Workspace} {ancestor source : Source}

/-- What holds a node that is not deleted, and is not this node, holds it in one of its children.
The induction is on the node, from which the walk goes up. -/
theorem exists_child_isAncestor (trees : workspace.Trees) (alive : workspace.isLive source = true)
    (above : workspace.isAncestor ancestor source = true) (apart : ancestor ≠ source) :
    ∃ child ∈ workspace.children ancestor, workspace.isAncestor child source = true := by
  obtain ⟨volume, node⟩ := source
  have tree : FileSystem.Tree (workspace.volume volume) := trees volume
  induction node using Nat.strongRecOn with
  | ind node ih =>
    obtain ⟨sameVolume, climbs⟩ := isAncestor_iff.mp above
    rcases FileSystem.isAncestor_iff.mp climbs with same | ⟨parent, held, less, climbs⟩
    · exact absurd (congrArg₂ Source.mk sameVolume same) apart
    · obtain ⟨parentLive, listed⟩ := tree.held node parent alive held
      have child : ⟨volume, node⟩ ∈ workspace.children ⟨volume, parent⟩ :=
        mem_children.mpr ⟨rfl, listed⟩
      by_cases here : ancestor = ⟨volume, parent⟩
      · exact ⟨_, here ▸ child, isAncestor_self _⟩
      · have upper : workspace.isAncestor ancestor ⟨volume, parent⟩ = true :=
          isAncestor_iff.mpr ⟨sameVolume, climbs⟩
        obtain ⟨next, under, reaches⟩ := ih parent less parentLive upper here
        exact ⟨next, under, isAncestor_trans reaches (isAncestor_parent trees child)⟩

/-- A file holds nothing but itself. -/
theorem eq_of_isAncestor (trees : workspace.Trees) (plain : workspace.isDirectory ancestor = false)
    (alive : workspace.isLive source = true) (above : workspace.isAncestor ancestor source = true) :
    source = ancestor := by
  by_contra apart
  obtain ⟨child, listed, _⟩ := exists_child_isAncestor trees alive above (Ne.symm apart)
  have directory := FileSystem.isDirectory_of_children (mem_children.mp listed).2
  exact nomatch plain.symm.trans directory

end Workspace

namespace Slot

mutual

def uses (source : Source) : Slot → Nat
  | .file _ other => if other = source then 1 else 0
  | .container _ _ _ (.error _) => 0
  | .container _ _ _ (.ok slots) => usesEach source slots

/-- How many places inside some slots hold a file. -/
def usesEach (source : Source) : List Slot → Nat
  | [] => 0
  | slot :: rest => uses source slot + usesEach source rest

end

mutual

/-- How many archives inside a slot, at every depth, hold a place of a file, at any depth. -/
def packs (source : Source) : Slot → Nat
  | .file .. => 0
  | .container _ _ _ (.error _) => 0
  | .container .directory _ _ (.ok slots) => packsEach source slots
  | .container .archive _ _ (.ok slots) =>
    packsEach source slots + if usesEach source slots = 0 then 0 else 1

/-- How many archives inside some slots hold a place of a file. -/
def packsEach (source : Source) : List Slot → Nat
  | [] => 0
  | slot :: rest => packs source slot + packsEach source rest

end

variable {source : Source}

theorem usesEach_append (slots others : List Slot) :
    usesEach source (slots ++ others) = usesEach source slots + usesEach source others := by
  induction slots with
  | nil => simp [usesEach]
  | cons slot rest ih => simp only [List.cons_append, usesEach, ih, Nat.add_assoc]

theorem usesEach_ne_zero {slots : List Slot} :
    usesEach source slots ≠ 0 ↔ ∃ slot ∈ slots, uses source slot ≠ 0 := by
  induction slots with
  | nil => simp [usesEach]
  | cons slot rest ih =>
    simp only [usesEach, List.exists_mem_cons_iff, ← ih]
    omega

theorem packsEach_eq_zero {slots : List Slot} :
    packsEach source slots = 0 ↔ ∀ slot ∈ slots, packs source slot = 0 := by
  induction slots with
  | nil => simp [packsEach]
  | cons slot rest ih => simp only [packsEach, List.forall_mem_cons, ← ih, Nat.add_eq_zero_iff]

/-- No archive holds a file that is not used. -/
theorem packs_eq_zero {slot : Slot} (unused : uses source slot = 0) : packs source slot = 0 := by
  induction slot using Slot.induct with
  | file name other => rfl
  | failed kind name touches fault => cases kind <;> rfl
  | container kind name touches slots ih =>
    rw [uses] at unused
    have none : packsEach source slots = 0 := packsEach_eq_zero.mpr fun slot present =>
      ih slot present (by_contra fun used => usesEach_ne_zero.mpr ⟨slot, present, used⟩ unused)
    cases kind with
    | directory => rw [packs, none]
    | archive => rw [packs, none, unused, if_pos rfl]

variable {workspace : Workspace}

/-- A change to a file reaches only places of this file, and containers with such places. -/
inductive Precise (workspace : Workspace) (source : Source) : Slot → Prop where
  | file {name : Name} {other : Source}
    (same : workspace.touchesFile source other = true → other = source) :
    Precise workspace source (.file name other)
  | container {kind : ContainerKind} {name : Name} {touches : List Touch} {slots : List Slot}
    (used : Reached workspace source (.container kind name touches (.ok slots)) →
      usesEach source slots ≠ 0)
    (inner : ∀ slot ∈ slots, Precise workspace source slot) :
    Precise workspace source (.container kind name touches (.ok slots))

theorem Precise.inner {kind : ContainerKind} {name : Name} {touches : List Touch}
    {slots : List Slot}
    (precise : Precise workspace source (.container kind name touches (.ok slots))) :
    ∀ slot ∈ slots, Precise workspace source slot := by
  cases precise with
  | container _ inner => exact inner

theorem Precise.used {slot : Slot} (precise : Precise workspace source slot)
    (reached : Reached workspace source slot) : uses source slot ≠ 0 := by
  cases precise with
  | file same =>
    obtain ⟨touch, held, touched⟩ := reached
    rw [List.mem_singleton.mp held] at touched
    rw [uses, if_pos (same touched)]
    exact Nat.one_ne_zero
  | container used _ => exact used reached

/-- A change to a file reaches all slots that use it. -/
theorem Layered.reached {slot : Slot} (layered : Layered workspace slot)
    (used : uses source slot ≠ 0) : Reached workspace source slot := by
  induction layered with
  | file name other =>
    rw [uses] at used
    obtain rfl : other = source := by_contra fun apart => used (if_neg apart)
    exact ⟨_, List.mem_singleton_self _, Workspace.isAncestor_self other⟩
  | container _ _ upward _ ih =>
    obtain ⟨slot, present, used⟩ := usesEach_ne_zero.mp used
    exact upward source slot present (ih slot present used)

/-- The walk for a change to a file enters just the slots that use it. -/
theorem reaches_iff_used {slot : Slot} (layered : Layered workspace slot)
    (precise : Precise workspace source slot) :
    workspace.reaches source slot.touches = .ok (decide (uses source slot ≠ 0)) := by
  obtain ⟨reached, known, iff⟩ := @reaches_of_layered workspace source slot layered
  rw [known, Except.ok.injEq, Bool.eq_iff_iff, iff, decide_eq_true_eq]
  exact ⟨precise.used, layered.reached⟩

end Slot

end Depot

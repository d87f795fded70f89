import Depot.Proofs.FileSystem.Commits
import Depot.Proofs.FileSystem.Index
import Mathlib

set_option autoImplicit false

namespace Depot.FileSystem

namespace Session

variable {session : Session} {id node : NodeId}

/-- The node to which a command gives another name. -/
def moves (session : Session) (command : Command) : Option NodeId :=
  match command with
  | .rename id .. =>
    if (session.step command).files.place? id = session.files.place? id then none else some id
  | _ => none

/-- Only a live node is given another name, and this is all that changes. -/
theorem moves_eq_some {command : Command} (moved : session.moves command = some id) :
    session.files.isLive id = true ∧ ∃ parent old name,
      session.files.place? id = some ⟨parent, old⟩ ∧ old ≠ name ∧
        Renamed id parent name session.files (session.step command).files := by
  cases command with
  | rename target requestor text =>
    simp only [moves] at moved
    split at moved
    · cases moved
    · next changed =>
      cases moved
      rcases session.step_cases (.rename id requestor text) with ⟨_, same⟩ | ⟨_, made⟩
      · exact absurd (congrArg (·.place? id) same) changed
      · generalize (session.step (.rename id requestor text)).files = after at made changed ⊢
        cases made with
        | rename renamed =>
          obtain ⟨node, place, name, _, there, alive, placed, ⟨_, rfl⟩ | ⟨other, _, rfl⟩⟩ :=
            rename_cases renamed
          · exact absurd rfl changed
          · refine ⟨by simp [isLive, there, alive], place.parent, place.name, name, ?_, other,
              .update there _ rfl⟩
            simp [place?, there, placed]
  | createFile | createDirectory | setContent | setWritable | delete | nextStamp | openStream
    | write | closeStream | dropStream => cases moved

/-- All other nodes stay at their places. -/
theorem step_place (tree : Tree session.files) {command : Command}
    (inside : id < session.files.nodes.length) (still : session.moves command ≠ some id) :
    (session.step command).files.place? id = session.files.place? id := by
  have known : id ∉ added session.files (session.step command).files := by
    rw [mem_added]
    lia
  unfold moves at still
  rcases session.step_cases command with ⟨_, same⟩ | ⟨_, made⟩
  · rw [same]
  generalize (session.step command).files = after at made still known ⊢
  cases made with
  | createFile made => exact (Extends.createFile tree made).follows.place id inside known
  | createDirectory made => exact (Extends.createDirectory tree made).follows.place id inside known
  | @rename target _ _ _ renamed =>
    rcases rename_eq_ok renamed with rfl | ⟨parent, old, name, _, _, _, _, change⟩
    · rfl
    · by_cases same : id = target
      · subst same
        simpa using still
      · rw [change.place, if_neg same]
  | setContent changed => exact (setContent_alike changed).1.place id
  | setWritable => exact setWritable_alike.1.place id
  | delete deleted =>
    obtain ⟨_, _, _, change⟩ := tree.delete_eq_ok deleted
    exact change.place id
  | closeStream _ closed => exact (closeStream_alike closed).1.place id
  | nextStamp | openStream | write | closeNothing | dropStream => rfl

/-- A command changes the way to a node exactly if it gives another name to the node or to one that
holds it. -/
theorem step_names (tree : Tree session.files) (command : Command)
    (inside : id < session.files.nodes.length) :
    (session.step command).files.names id = session.files.names id ↔
      ∀ other, session.moves command = some other → session.files.isAncestor other id = false := by
  have continues := step_continues tree command
  constructor
  · intro same other moved
    obtain ⟨_, parent, old, name, placed, unequal, renamed⟩ := moves_eq_some moved
    cases above : session.files.isAncestor other id with
    | false => rfl
    | true =>
      -- the name of `other` stands at the same depth in both ways
      have own : session.files.names other = session.files.names parent ++ [old] :=
        tree.names_child placed
      obtain ⟨rest, whole⟩ := tree.prefix_of_isAncestor above
      rw [renamed.names_eq tree continues.tree placed, if_pos above, ← whole, own] at same
      simp at same
      exact absurd same.symm unequal
  · intro apart
    refine names_of_holders fun other above => ?_
    rw [continues.follows.isAncestor inside] at above
    have early : other < session.files.nodes.length :=
      Nat.lt_of_le_of_lt (le_of_isAncestor above) inside
    refine step_place tree early fun moved => ?_
    simp [apart other moved] at above

/-- The way to a node stays the same all along exactly if no node on it is ever given another name.
By induction on the commands. -/
theorem run_names (tree : Tree session.files) (commands : List Command)
    (inside : id < session.files.nodes.length) :
    (∀ front, front <+: commands → (session.run front).files.names id = session.files.names id) ↔
      ∀ other ∈ session.gather moves commands, session.files.isAncestor other id = false := by
  induction commands generalizing session with
  | nil =>
    simp only [List.prefix_nil, gather, List.not_mem_nil, false_implies, implies_true, iff_true]
    rintro _ rfl
    rfl
  | cons command rest ih =>
    have continues := step_continues tree command
    have here := step_names tree command inside
    have later := ih continues.tree (Nat.lt_of_lt_of_le inside continues.follows.grows)
    simp only [continues.follows.isAncestor inside] at later
    constructor
    · intro kept other present
      have same : (session.step command).files.names id = session.files.names id :=
        kept [command] (List.prefix_cons_iff.mpr (.inr ⟨[], rfl, List.nil_prefix⟩))
      rcases List.mem_append.mp present with now | after
      · exact here.mp same other (Option.mem_toList.mp now)
      · refine later.mp (fun front start => ?_) other after
        have whole := kept (command :: front) (List.cons_prefix_cons.mpr ⟨rfl, start⟩)
        exact whole.trans same.symm
    · intro apart front start
      cases front with
      | nil => rfl
      | cons first front =>
        obtain ⟨rfl, onward⟩ := List.cons_prefix_cons.mp start
        have same := here.mpr fun other moved =>
          apart other (List.mem_append_left _ (Option.mem_toList.mpr moved))
        have kept := later.mpr fun other present => apart other (List.mem_append_right _ present)
        exact (kept front onward).trans same

/-- A deleted node stays deleted, and in its place. By induction on the commands. -/
theorem run_dead (tree : Tree session.files) (commands : List Command)
    (inside : id < session.files.nodes.length) (dead : session.files.isLive id = false) :
    (session.run commands).files.isLive id = false ∧
      (session.run commands).files.place? id = session.files.place? id := by
  induction commands generalizing session with
  | nil => exact ⟨dead, rfl⟩
  | cons command rest ih =>
    have continues := step_continues tree command
    have unmoved : session.moves command ≠ some id := by
      intro moved
      rw [(moves_eq_some moved).1] at dead
      cases dead
    have still : (session.step command).files.isLive id = false := by
      cases alive : (session.step command).files.isLive id with
      | false => rfl
      | true => simp [continues.follows.live id inside alive] at dead
    have later := ih continues.tree (Nat.lt_of_lt_of_le inside continues.follows.grows) still
    exact ⟨later.1, later.2.trans (step_place tree inside unmoved)⟩

/-- What is left of a deleted node is below the directory that held it, always by the same names. By
induction on the node, from parent to child. -/
theorem run_names_below (tree : Tree session.files) {holder : NodeId}
    (held : session.files.parent? id = some holder)
    (dead : ∀ other, session.files.isAncestor id other = true → session.files.isLive other = false)
    (below : session.files.isAncestor id node = true) :
    ∃ rest, ∀ commands, (session.run commands).files.names node =
      (session.run commands).files.names holder ++ rest := by
  have child : ∀ other parent name, session.files.isAncestor id other = true →
      session.files.place? other = some ⟨parent, name⟩ → ∀ commands,
        (session.run commands).files.names other =
          (session.run commands).files.names parent ++ [name] := by
    intro other parent name above placed commands
    have kept := (run_dead tree commands (lt_length_of_place placed) (dead other above)).2
    exact (run_continues tree commands).tree.names_child (kept.trans placed)
  induction node using Nat.strongRecOn with
  | ind node ih =>
    rcases isAncestor_iff.mp below with rfl | ⟨parent, around, less, above⟩
    · obtain ⟨name, placed⟩ := parent?_eq_some.mp held
      exact ⟨[name], child id holder name below placed⟩
    · obtain ⟨name, placed⟩ := parent?_eq_some.mp around
      obtain ⟨rest, upper⟩ := ih parent less above
      refine ⟨rest ++ [name], fun commands => ?_⟩
      rw [child node parent name below placed, upper, List.append_assoc]

/-- What a deletion that is accepted does. -/
theorem step_delete (tree : Tree session.files) {requestor : String}
    (accepted : session.accepts (.delete id requestor) = true) :
    ∃ holder, session.files.parent? id = some holder ∧ session.files.isLive holder = true ∧
      Deleted id holder session.files (session.step (.delete id requestor)).files := by
  rcases session.step_cases (.delete id requestor) with ⟨refused, _⟩ | ⟨_, made⟩
  · rw [accepted] at refused
    cases refused
  · cases made with
    | delete deleted =>
      obtain ⟨holder, held, alive, change⟩ := tree.delete_eq_ok deleted
      exact ⟨holder, held, (tree.held id holder alive held).1, change⟩

/-- Whatever happens after a node was deleted, directly or with a directory around it: it keeps its
name, and its path is the one of the directory that held what was deleted, with the same names after
it. So the path is the one from before the deletion as long as none of the directories around it is
given another name, and only so long. -/
theorem run_keeps_location (first : List Command) {requestor : String}
    (accepted : (start.run first).accepts (.delete id requestor) = true)
    (alive : (start.run first).files.isLive node = true)
    (below : (start.run first).files.isAncestor id node = true) (second : List Command) :
    let before := (start.run first).files
    let grave := (start.run first).step (.delete id requestor)
    let now := (grave.run second).files
    now.isLive node = false ∧ now.name node = before.name node ∧
    (∃ holder rest, before.parent? id = some holder ∧ before.isLive holder = true ∧
      (before.path node).names = (before.path holder).names ++ rest ∧
      (now.path node).names = (now.path holder).names ++ rest) ∧
    ((∀ later, later <+: second → (grave.run later).files.path node = before.path node) ↔
      ∀ other ∈ grave.gather moves second, before.isAncestor other node = false) := by
  intro before grave now
  have tree : Tree before := tree_run first
  obtain ⟨holder, held, holding, deleted⟩ := step_delete tree accepted
  have later : Tree grave.files := deleted.tree tree held
  have ancestor : ∀ other node, grave.files.isAncestor other node = before.isAncestor other node :=
    fun other node => isAncestor_congr fun node _ => deleted.parent? node
  have names : ∀ other, grave.files.names other = before.names other :=
    fun other => names_congr fun node _ => deleted.place node
  have dead : ∀ other, grave.files.isAncestor id other = true →
      grave.files.isLive other = false := by
    intro other above
    rw [ancestor] at above
    cases live : grave.files.isLive other with
    | false => rfl
    | true =>
      have apart : before.isAncestor id other = false := ((deleted.live other).mp live).2
      simp [above] at apart
  have inside : node < grave.files.nodes.length := deleted.length ▸ lt_length_of_isLive alive
  have beneath : grave.files.isAncestor id node = true := (ancestor id node).trans below
  obtain ⟨still, place⟩ := run_dead later second inside (dead node beneath)
  obtain ⟨rest, whole⟩ := run_names_below later ((deleted.parent? id).trans held) dead beneath
  refine ⟨still, ?_, ⟨holder, rest, held, holding, ?_, whole second⟩, ?_⟩
  · unfold FileSystem.name
    rw [place, deleted.place]
  · have start := whole []
    rwa [run, List.foldl_nil, names, names] at start
  · have along := run_names later second inside
    simp only [ancestor, names] at along
    simpa only [path, Path.mk.injEq] using along

/-- A directory in which another one is to be deleted. -/
def around : List Command :=
  [.createFile "a/b/c" [1], .createDirectory "a/d"]

def grave : Session :=
  (start.run around).step (.delete 2 "t")

/-- At the place of what was deleted, others are made, renamed and deleted. -/
def replacing : List Command :=
  [.createFile "a/b/c" [2], .rename 5 "t" "x", .rename 4 "t" "b", .rename 2 "t" "y",
    .rename 3 "t" "z", .delete 5 "t", .delete 4 "t"]

theorem run_keeps_location_replaced :
    (start.run around).accepts (.delete 2 "t") = true ∧ (start.run around).files.isLive 3 = true ∧
      (start.run around).files.isAncestor 2 3 = true ∧ grave.gather moves replacing = [5, 4] ∧
      ∀ later, later <+: replacing →
        (grave.run later).files.path 3 = (start.run around).files.path 3 := by
  have accepted : (start.run around).accepts (.delete 2 "t") = true := by decide +kernel
  have alive : (start.run around).files.isLive 3 = true := by decide +kernel
  have below : (start.run around).files.isAncestor 2 3 = true := by decide +kernel
  have moved : grave.gather moves replacing = [5, 4] := by cbv
  have apart : ∀ other ∈ grave.gather moves replacing,
      (start.run around).files.isAncestor other 3 = false := by
    rw [moved]
    decide +kernel
  obtain ⟨_, _, _, kept⟩ := run_keeps_location around accepted alive below replacing
  exact ⟨accepted, alive, below, moved, kept.mpr apart⟩

/-- A directory that is renamed takes along what was deleted in it before. -/
theorem moved_after_deletion :
    (start.run around).accepts (.delete 2 "t") = true ∧ (start.run around).files.isLive 3 = true ∧
      (start.run around).files.isAncestor 2 3 = true ∧
      ((start.run around).files.path 3).display = "a/b/c" ∧
      ((grave.step (.rename 1 "t" "x")).files.path 3).display = "x/b/c" :=
  ⟨by decide +kernel, by decide +kernel, by decide +kernel, by cbv, by cbv⟩

end Session

end Depot.FileSystem

import Depot.Proofs.FileSystem.Tree
import Mathlib.Data.List.Sort

set_option autoImplicit false

namespace Depot.FileSystem

variable {fs before after : FileSystem} {touched : List NodeId}

theorem read_eq_ok {id : NodeId} {content : Bytes} :
    fs.read id = .ok content ↔ fs.isLive id = true ∧ fs.file? id = some (content, fs.stamp id) := by
  unfold FileSystem.read liveNode isLive file? stamp
  cases fs.node? id with
  | none => simp [bind, Except.bind]
  | some node =>
    obtain ⟨place?, held, stamp, writable, live⟩ := node
    cases live with
    | false => simp [bind, Except.bind]
    | true =>
      cases held with
      | file bytes => simp [bind, Except.bind, pure, Except.pure]
      | directory children => simp [bind, Except.bind, throw, throwThe, MonadExceptOf.throw]

theorem exists_read {id : NodeId} (alive : fs.isLive id = true) (file : fs.isDirectory id = false) :
    ∃ content, fs.read id = .ok content := by
  unfold isLive at alive
  unfold isDirectory at file
  unfold read liveNode
  cases found : fs.node? id with
  | none => simp [found] at alive
  | some node =>
    obtain ⟨place?, content, stamp, writable, live⟩ := node
    simp only [found, Option.any_some] at alive file
    cases content with
    | directory children => simp at file
    | file bytes => exact ⟨bytes, by simp [alive, bind, Except.bind, pure, Except.pure]⟩

theorem isDirectory_of_read {id : NodeId} {content : Bytes} (read : fs.read id = .ok content) :
    fs.isDirectory id = false := by
  have file := (read_eq_ok.mp read).2
  unfold file? at file
  unfold isDirectory
  cases found : fs.node? id with
  | none => rfl
  | some node =>
    obtain ⟨place?, held, stamp, writable, live⟩ := node
    cases held with
    | file bytes => rfl
    | directory children => simp [found] at file

namespace Follows

variable (follows : Follows touched before after) (earlier : Tree before) (later : Tree after)

include follows

/-- A live node that was not touched was live before. -/
theorem was_live {id : NodeId} (alive : after.isLive id = true) (untouched : id ∉ touched) :
    before.isLive id = true := by
  have inside : id < before.nodes.length := by
    by_cases inside : id < before.nodes.length
    · exact inside
    · exact absurd (follows.created id (by lia) (lt_length_of_isLive alive)) untouched
  exact follows.live id inside alive

include earlier later

/-- A directory that lists an untouched node listed it before. -/
theorem was_child {id child : NodeId} (alive : after.isLive id = true)
    (listed : child ∈ after.children id) (untouched : child ∉ touched) :
    child ∈ before.children id := by
  obtain ⟨held, same⟩ := later.listed id child listed
  have childLive := follows.was_live (same.trans alive) untouched
  have inside := lt_length_of_isLive childLive
  rw [follows.parent child inside] at held
  exact (earlier.held child id childLive held).2

/-- A directory keeps what it lists, unless something touched holds it. -/
theorem is_child {id child : NodeId} (alive : before.isLive id = true)
    (listed : child ∈ before.children id)
    (untouched : ∀ cause ∈ touched, after.isAncestor cause child = false) :
    child ∈ after.children id := by
  obtain ⟨held, same⟩ := earlier.listed id child listed
  have childLive : before.isLive child = true := same.trans alive
  have inside := lt_length_of_isLive childLive
  rw [← follows.parent child inside] at held
  cases now : after.isLive child with
  | true => exact (later.held child id now held).2
  | false =>
    obtain ⟨cause, present, above⟩ := follows.killed child childLive now
    rw [untouched cause present] at above
    cases above

/-- A directory lists the same if nothing that it holds or is held by was touched. -/
theorem children_eq {id : NodeId} (wasLive : before.isLive id = true)
    (alive : after.isLive id = true)
    (untouched : ∀ cause ∈ touched,
      after.isAncestor id cause = false ∧ after.isAncestor cause id = false) :
    after.children id = before.children id := by
  refine List.Pairwise.eq_of_mem_iff (later.ascending id) (earlier.ascending id) fun child => ?_
  constructor
  · intro listed
    have held := (later.listed id child listed).1
    have above : after.isAncestor id child = true :=
      (later.isAncestor_child held).mpr (.inr (isAncestor_self id))
    refine follows.was_child earlier later alive listed fun present => ?_
    rw [(untouched child present).1] at above
    cases above
  · intro listed
    refine follows.is_child earlier later wasLive listed fun cause present => ?_
    have held := (earlier.listed id child listed).1
    have inside : child < before.nodes.length := by
      obtain ⟨name, placed⟩ := parent?_eq_some.mp held
      exact lt_length_of_place placed
    rw [← follows.parent child inside] at held
    cases above : after.isAncestor cause child with
    | false => rfl
    | true =>
      rcases (later.isAncestor_child held).mp above with rfl | above
      · have below := (later.isAncestor_child held).mpr (.inr (isAncestor_self id))
        rw [(untouched cause present).1] at below
        cases below
      · rw [(untouched cause present).2] at above
        cases above

end Follows

end Depot.FileSystem

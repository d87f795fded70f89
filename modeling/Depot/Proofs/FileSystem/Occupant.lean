import Depot.Proofs.FileSystem.Deletion
import Depot.Proofs.FileSystem.Editing

set_option autoImplicit false

namespace Depot.Stamp

variable {stamp : Stamp} {count : Nat}

def after (stamp : Stamp) (count : Nat) : Stamp :=
  stamp + UInt64.ofNat count

theorem after_zero (stamp : Stamp) : stamp.after 0 = stamp :=
  UInt64.add_zero stamp

theorem after_after (stamp : Stamp) (first second : Nat) :
    (stamp.after first).after second = stamp.after (first + second) := by
  rw [after, after, after, UInt64.ofNat_add, UInt64.add_assoc]

theorem next_after (stamp : Stamp) (count : Nat) :
    (stamp + 1).after count = stamp.after (count + 1) := by
  rw [Nat.add_comm, ← after_after]
  rfl

theorem after_next (stamp : Stamp) (count : Nat) :
    stamp.after count + 1 = (stamp + 1).after count := by
  rw [next_after]
  exact after_after stamp count 1

theorem toNat_after (fits : stamp.toNat + count < UInt64.size) :
    (stamp.after count).toNat = stamp.toNat + count := by
  rw [after, UInt64.toNat_add, UInt64.toNat_ofNat', Nat.add_mod_mod, Nat.mod_eq_of_lt fits]

/-- Stamps that are handed out ascend, as long as the counter does not start again. -/
theorem after_lt_after {fewer : Nat} (fits : stamp.toNat + count < UInt64.size)
    (lt : fewer < count) :
    stamp.after fewer < stamp.after count := by
  rw [UInt64.lt_iff_toNat_lt, toNat_after fits, toNat_after (by omega)]
  exact Nat.add_lt_add_left lt _

theorem after_le_after {fewer : Nat} (fits : stamp.toNat + count < UInt64.size)
    (le : fewer ≤ count) :
    stamp.after fewer ≤ stamp.after count := by
  rw [UInt64.le_iff_toNat_le, toNat_after fits, toNat_after (by omega)]
  exact Nat.add_le_add_left le _

theorem le_after (fits : stamp.toNat + count < UInt64.size) : stamp ≤ stamp.after count := by
  have le := after_le_after fits (Nat.zero_le count)
  rwa [after_zero] at le

theorem lt_after (fits : stamp.toNat + count < UInt64.size) (pos : 0 < count) :
    stamp < stamp.after count := by
  have lt := after_lt_after fits pos
  rwa [after_zero] at lt

theorem le_max_left (stamp other : Stamp) : stamp ≤ max stamp other := by
  change stamp ≤ if stamp ≤ other then other else stamp
  split
  · assumption
  · exact UInt64.le_refl stamp

theorem le_max_right (stamp other : Stamp) : other ≤ max stamp other := by
  change other ≤ if stamp ≤ other then other else stamp
  split
  · exact UInt64.le_refl other
  · exact UInt64.le_of_lt (UInt64.not_le.mp ‹_›)

end Depot.Stamp

namespace Depot.FileSystem

def Content.bytes? : Content → Option Bytes
  | .file bytes => some bytes
  | .directory _ => none

/-- A node with what it holds. -/
structure Occupant where
  node : NodeId
  bytes? : Option Bytes
  stamp : Stamp
  writable : Bool
deriving DecidableEq

def Occupant.revise (id : NodeId) (change : Occupant → Occupant) (occupant : Occupant) : Occupant :=
  if occupant.node = id then change occupant else occupant

def Node.occupant (node : Node) (id : NodeId) : Occupant where
  node := id
  bytes? := node.content.bytes?
  stamp := node.stamp
  writable := node.writable

/-- What a node holds, also one that was deleted. -/
def occupant? (fs : FileSystem) (id : NodeId) : Option Occupant :=
  (fs.node? id).map (·.occupant id)

variable {fs before after : FileSystem} {id : NodeId}

theorem node_of_occupant? {occupant : Occupant} (held : fs.occupant? id = some occupant) :
    occupant.node = id := by
  obtain ⟨node, _, rfl⟩ := Option.map_eq_some_iff.mp held
  rfl

theorem occupant?_of_node? {node : Node} (found : fs.node? id = some node) :
    fs.occupant? id = some (node.occupant id) := by
  simp [occupant?, found]

theorem occupant?_isSome : (fs.occupant? id).isSome ↔ id < fs.nodes.length := by
  simp [occupant?, node?]

theorem stamp_eq (fs : FileSystem) (id : NodeId) :
    fs.stamp id = ((fs.occupant? id).map Occupant.stamp).getD 0 := by
  simp only [stamp, occupant?, Option.map_map]
  rfl

theorem file?_eq (fs : FileSystem) (id : NodeId) :
    fs.file? id = (fs.occupant? id).bind fun occupant =>
      occupant.bytes?.map fun bytes => (bytes, occupant.stamp) := by
  unfold file? occupant?
  cases fs.node? id with
  | none => rfl
  | some node =>
    obtain ⟨place?, content, stamp, writable, live⟩ := node
    cases content <;> rfl

/-- A node is a directory if it holds no bytes. -/
theorem isDirectory_of_occupant? {occupant : Occupant} (held : fs.occupant? id = some occupant) :
    fs.isDirectory id = occupant.bytes?.isNone := by
  obtain ⟨node, found, rfl⟩ := Option.map_eq_some_iff.mp held
  obtain ⟨place?, content, stamp, writable, live⟩ := node
  rw [isDirectory, found]
  cases content <;> rfl

section Update

variable {change : Node → Node} (other : NodeId)

/-- An update is seen in the node alone. -/
theorem occupant?_update {revision : Occupant → Occupant}
    (shows : ∀ node, (change node).occupant id = revision (node.occupant id)) :
    (fs.update id change).occupant? other = (fs.occupant? other).map (·.revise id revision) := by
  simp only [occupant?, node?_update]
  by_cases same : other = id
  · subst same
    cases fs.node? other with
    | none => simp
    | some node =>
      have own : (node.occupant other).node = other := rfl
      simp [Occupant.revise, shows, own]
  · cases fs.node? other with
    | none => simp [same]
    | some node => simp [same, Occupant.revise, Node.occupant]

/-- What no occupant shows is not seen. -/
theorem occupant?_update_of_hidden (hidden : ∀ node, (change node).occupant id = node.occupant id) :
    (fs.update id change).occupant? other = fs.occupant? other := by
  simp only [occupant?, node?_update]
  by_cases same : other = id
  · subst same
    cases fs.node? other <;> simp [hidden]
  · simp [same]

theorem occupant_relist (lists : List NodeId → List NodeId) (node : Node) :
    (node.relist lists).occupant id = node.occupant id := by
  obtain ⟨place?, content, stamp, writable, live⟩ := node
  cases content <;> rfl

@[simp]
theorem occupant?_relisted (lists : List NodeId → List NodeId) :
    (fs.update id (Node.relist lists)).occupant? other = fs.occupant? other :=
  occupant?_update_of_hidden other (occupant_relist lists)

@[simp]
theorem occupant?_note (event : Event) : (fs.note event).occupant? other = fs.occupant? other := rfl

end Update

theorem occupant?_setContent {requestor : String} {content : Bytes} {announce : Bool}
    (changed : fs.setContent id requestor content announce = .ok after) (other : NodeId) :
    after.occupant? other = (fs.occupant? other).map (·.revise id fun occupant =>
      { occupant with
        bytes? := some content
        stamp := if announce then fs.lastStamp + 1 else occupant.stamp }) := by
  obtain ⟨_, _, _, _, _, rfl⟩ := setContent_eq_ok.mp changed
  cases announce with
  | true => exact @occupant?_update fs.nextStamp.2 id _ other _ fun _ => rfl
  | false => exact occupant?_update other fun _ => rfl

theorem occupant?_closeStream {stream : Stream} (closed : fs.closeStream stream = .ok after)
    (other : NodeId) :
    after.occupant? other = (fs.occupant? other).map (·.revise stream.node fun occupant =>
      { occupant with bytes? := some stream.buffer, stamp := stream.stamp }) := by
  obtain ⟨_, _, _, _, _, _, _, rfl⟩ := closeStream_eq_ok.mp closed
  exact @occupant?_update fs stream.node _ other _ fun _ => rfl

theorem occupant?_setWritable {writable : Bool} (other : NodeId) :
    (fs.setWritable id writable).occupant? other =
      (fs.occupant? other).map (·.revise id fun occupant => { occupant with writable }) := by
  unfold setWritable
  split
  · next same =>
    -- nothing is done, as the node has the flag already
    unfold isWritable at same
    cases found : fs.node? other with
    | none => simp [occupant?, found]
    | some node =>
      by_cases own : other = id
      · subst own
        simp only [found, Option.any_some] at same
        simp [occupant?, found, Occupant.revise, Node.occupant, same]
      · simp [occupant?, found, Occupant.revise, Node.occupant, own]
  · exact occupant?_update other fun _ => rfl

theorem occupant?_rename {requestor text : String}
    (renamed : fs.rename id requestor text = .ok after) (other : NodeId) :
    after.occupant? other = fs.occupant? other := by
  obtain ⟨_, _, _, _, _, _, _, ⟨_, rfl⟩ | ⟨_, _, rfl⟩⟩ := rename_cases renamed
  · rfl
  · exact occupant?_update_of_hidden other fun _ => rfl

@[simp]
theorem occupant?_bury (stack : List NodeId) (other : NodeId) :
    (fs.bury stack).occupant? other = fs.occupant? other := by
  fun_induction bury fs stack with
  | case1 => rfl
  | case2 fs id stack alive ih =>
    rw [ih]
    exact occupant?_update_of_hidden other fun _ => rfl
  | case3 fs id stack dead ih => exact ih

theorem occupant?_delete {requestor : String} (deleted : fs.delete id requestor = .ok after)
    (other : NodeId) : after.occupant? other = fs.occupant? other := by
  obtain ⟨_, _, rfl⟩ := delete_cases deleted
  rw [occupant?_note, occupant?_bury]
  unfold detach
  split
  · exact occupant?_relisted other _
  · rfl

theorem occupant?_insert (parent : NodeId) (name : Name) (content : Content) (other : NodeId) :
    (fs.insert parent name content).2.occupant? other =
      if other = fs.nodes.length then
        some ⟨fs.nodes.length, content.bytes?, fs.lastStamp + 1, true⟩
      else fs.occupant? other := by
  rw [occupant?, node?_insert]
  split
  · next new =>
    subst new
    rfl
  · exact occupant?_relisted other _

/-- Nodes with the given contents were added, numbered and dated one by one, and nothing else was
changed. -/
structure Gains (contents : List (Option Bytes)) (before after : FileSystem) : Prop where
  length : after.nodes.length = before.nodes.length + contents.length
  last : after.lastStamp = before.lastStamp.after contents.length
  old : ∀ id, id < before.nodes.length → after.occupant? id = before.occupant? id
  new : ∀ index, after.occupant? (before.nodes.length + index) = contents[index]?.map fun bytes? =>
    ⟨before.nodes.length + index, bytes?, before.lastStamp.after (index + 1), true⟩

theorem Gains.refl (fs : FileSystem) : Gains [] fs fs where
  length := rfl
  last := fs.lastStamp.after_zero.symm
  old _ _ := rfl
  new index := by simp [occupant?, node?_eq_none]

theorem Gains.insert (fs : FileSystem) (parent : NodeId) (name : Name) (content : Content) :
    Gains [content.bytes?] fs (fs.insert parent name content).2 where
  length := length_insert ..
  last := rfl
  old id inside := by
    have unequal : id ≠ fs.nodes.length := by omega
    rw [occupant?_insert, if_neg unequal]
  new index := by
    rw [occupant?_insert]
    cases index with
    | zero =>
      rw [Nat.add_zero, if_pos rfl]
      rfl
    | succ index => simp [occupant?, node?_eq_none]

theorem Gains.trans {middle : FileSystem} {first second : List (Option Bytes)}
    (earlier : Gains first before middle) (later : Gains second middle after) :
    Gains (first ++ second) before after where
  length := by
    rw [later.length, earlier.length, List.length_append]
    omega
  last := by
    rw [later.last, earlier.last, List.length_append, Stamp.after_after]
  old id inside := by
    have bounds := earlier.length
    rw [later.old id (by omega), earlier.old id inside]
  new index := by
    have bounds := earlier.length
    by_cases early : index < first.length
    · rw [later.old _ (by lia), earlier.new, List.getElem?_append_left early]
    · obtain ⟨rest, rfl⟩ := Nat.exists_eq_add_of_le (Nat.le_of_not_lt early)
      have shown := later.new rest
      rw [earlier.length, earlier.last, Stamp.after_after] at shown
      rw [List.getElem?_append_right (Nat.le_add_right ..), Nat.add_sub_cancel_left,
        ← Nat.add_assoc, shown, Nat.add_assoc first.length]

theorem Gains.makeDirectories {names : List Name} {last : NodeId}
    (made : fs.makeDirectories id names = .ok (last, after)) :
    ∃ count, Gains (List.replicate count none) fs after := by
  induction names generalizing fs id with
  | nil =>
    cases made
    exact ⟨0, .refl _⟩
  | cons name rest ih =>
    unfold FileSystem.makeDirectories at made
    split at made
    · split at made
      · exact ih made
      · cases made
    · obtain ⟨count, gains⟩ := ih made
      exact ⟨count + 1, (Gains.insert fs id name (.directory [])).trans gains⟩

theorem Gains.createDirectory {text : String} (made : fs.createDirectory text = .ok (id, after)) :
    ∃ count, Gains (List.replicate count none) fs after := by
  obtain ⟨_, _, made⟩ := createDirectory_eq_ok.mp made
  exact Gains.makeDirectories made

/-- The file comes after the directories around it. -/
theorem Gains.createFile {text : String} {content : Bytes}
    (made : fs.createFile text content = .ok (id, after)) :
    ∃ count, id = fs.nodes.length + count ∧
      Gains (List.replicate count none ++ [some content]) fs after := by
  obtain ⟨_, _, name, directory, middle, _, _, placed, _, inserted⟩ := createFile_eq_ok.mp made
  obtain ⟨count, gains⟩ := Gains.makeDirectories placed
  have grown := gains.trans (Gains.insert middle directory name (.file content))
  have number : id = middle.nodes.length := (congrArg Prod.fst inserted).symm
  rw [inserted] at grown
  refine ⟨count, ?_, grown⟩
  rw [number, gains.length, List.length_replicate]

end Depot.FileSystem

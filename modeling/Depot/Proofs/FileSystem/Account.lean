import Depot.Proofs.FileSystem.Refinement
import Depot.Proofs.FileSystem.Stamps

set_option autoImplicit false

namespace Depot.FileSystem

/-- What the events tell of a node. Its stamp is told only when it changes. -/
structure Sighting where
  path : Path
  writable : Bool
  stamp? : Option Stamp
deriving DecidableEq

abbrev Account := NodeId → Option Sighting

namespace Account

def start : Account := fun id => if id = rootId then some ⟨.root, true, none⟩ else none

/-- Learns something new of one node, if it is there. -/
def revise (account : Account) (id : NodeId) (change : Sighting → Sighting) :
    Account := fun other =>
  if other = id then (account other).map change else account other

/-- Takes in an event. Those about nodes that are not there say nothing. -/
def hear (account : Account) : Event → Account
  | .created node path => fun other => if other =
    node then some ⟨path, true, none⟩ else account other
  | .contentChanged _ node _ _ new => account.revise node fun seen =>
    { seen with stamp? := some new }
  | .writableChanged node _ writable => account.revise node fun seen => { seen with writable }
  | .renamed _ node _ new =>
    match account node with
    | none => account
    | some place => fun other => (account other).map fun seen =>
        { seen with path := seen.path.renamed place.path new }
  | .deleted _ node path =>
    match account node with
    | none => account
    | some _ => fun other => (account other).filter fun seen => ¬ path.names <+: seen.path.names

def replay (account : Account) (events : List Event) : Account :=
  events.foldl hear account

theorem replay_append (account : Account) (first second : List Event) :
    account.replay (first ++ second) = (account.replay first).replay second := by
  simp [replay]

theorem replay_singleton (account : Account) (event : Event) :
    account.replay [event] = account.hear event := rfl

/-- New nodes are told one by one, and nothing else is heard. -/
theorem replay_created (account : Account) (ids : List NodeId) (path : NodeId → Path)
    (id : NodeId) :
    account.replay (ids.map fun id => .created id (path id)) id =
      if id ∈ ids then some ⟨path id, true, none⟩ else account id := by
  induction ids generalizing account with
  | nil => rfl
  | cons new rest ih =>
    have first : account.replay ((new :: rest).map fun id => .created id (path id)) =
        (account.hear (.created new (path new))).replay
          (rest.map fun id => .created id (path id)) := rfl
    rw [first, ih]
    by_cases later : id ∈ rest
    · simp [later]
    · by_cases same : id = new
      · simp [hear, same]
      · simp [hear, later, same]

end Account

/-- What there is to tell of a node. Its stamp is told if it is among those that got a new one. -/
def sighting (fs : FileSystem) (renewed : List NodeId) (id : NodeId) : Sighting where
  path := fs.path id
  writable := fs.isWritable id
  stamp? := if id ∈ renewed then some (fs.stamp id) else none

def account (fs : FileSystem) (renewed : List NodeId) : Account := fun id =>
  if fs.isLive id then some (fs.sighting renewed id) else none

variable {fs before after : FileSystem}

section Account

variable {renewed told : List NodeId} {id : NodeId}

theorem account_of_live (alive : fs.isLive id = true) :
    fs.account renewed id = some (fs.sighting renewed id) :=
  if_pos alive

theorem account_of_dead (dead : fs.isLive id = false) : fs.account renewed id = none :=
  if_neg (by simp [dead])

theorem account_congr (same : ∀ id, id ∈ told ↔ id ∈ renewed) :
    fs.account told = fs.account renewed := by
  funext id
  simp only [account, sighting, same]

theorem isWritable_eq (fs : FileSystem) (id : NodeId) :
    fs.isWritable id = (fs.occupant? id).any Occupant.writable := by
  unfold isWritable occupant?
  cases fs.node? id <;> rfl

theorem isWritable_congr (same : after.occupant? id = before.occupant? id) :
    after.isWritable id = before.isWritable id := by
  rw [isWritable_eq, same, ← isWritable_eq]

theorem sighting_congr (path : after.path id = before.path id)
    (same : after.occupant? id = before.occupant? id) (heard : id ∈ told ↔ id ∈ renewed) :
    after.sighting told id = before.sighting renewed id := by
  simp only [sighting, path, isWritable_congr same, stamp_congr same, heard]

end Account

/-- An event is right about a change: it gives the path of its node, the names that it had and has,
and the stamps that it had just before and has now. -/
def Event.Fits (before after : FileSystem) : Event → Prop
  | created node path => before.nodes.length ≤ node ∧ path = after.path node
  | contentChanged _ node path old new =>
    path = before.path node ∧ old = before.stamp node ∧ new = after.stamp node
  | renamed _ node old new => before.name node = .ok old ∧ after.name node = .ok new
  | writableChanged node path _ => path = before.path node
  | deleted _ node path => path = before.path node

/-- A change that gives at most one node a new stamp delivers some events, which are right and from
which it can be known. -/
structure Narrates (renewed : Option NodeId) (before after : FileSystem) (news : List Event) :
    Prop where
  log : after.log = before.log ++ news
  fits : ∀ event ∈ news, event.Fits before after
  replay : ∀ earlier : List NodeId, (∀ id ∈ earlier, id < before.nodes.length) →
    (before.account earlier).replay news = after.account (renewed.toList ++ earlier)

/-- A change that is seen nowhere delivers nothing. -/
theorem Narrates.silent (log : after.log = before.log)
    (live : ∀ id, after.isLive id = before.isLive id)
    (path : ∀ id, after.path id = before.path id) (stamp : ∀ id, after.stamp id = before.stamp id)
    (writable : ∀ id, after.isWritable id = before.isWritable id) :
    Narrates none before after [] where
  log := by rw [log, List.append_nil]
  fits _ present := nomatch present
  replay earlier _ := by
    funext id
    simp only [Account.replay, List.foldl_nil, account, sighting, live, path, stamp, writable,
      Option.toList_none, List.nil_append]

theorem Narrates.refl : Narrates none fs fs [] :=
  .silent rfl (fun _ => rfl) (fun _ => rfl) (fun _ => rfl) fun _ => rfl

/-- What is seen in one node alone is learned of this node. -/
theorem account_revised {id : NodeId} {change : Occupant → Occupant} {learn : Sighting → Sighting}
    {told earlier : List NodeId} (alike : Alike before after)
    (revised : ∀ other, after.occupant? other = (before.occupant? other).map (·.revise id change))
    (heard : ∀ other, other ≠ id → (other ∈ told ↔ other ∈ earlier))
    (shown : before.isLive id = true →
      after.sighting told id = learn (before.sighting earlier id)) :
    (before.account earlier).revise id learn = after.account told := by
  funext other
  unfold Account.revise
  by_cases own : other = id
  · subst own
    rw [if_pos rfl]
    cases alive : before.isLive other with
    | false =>
      rw [account_of_dead alive, account_of_dead ((alike.live other).trans alive)]
      rfl
    | true =>
      rw [account_of_live alive, account_of_live ((alike.live other).trans alive), shown alive]
      rfl
  · rw [if_neg own]
    unfold account
    rw [alike.live, sighting_congr (path_congr alike.place) (occupant?_revised_of_ne revised own)
      (heard other own)]

/-- A change of a content is told with both stamps. -/
theorem Narrates.contentChanged {id : NodeId} {requestor : String} {bytes? : Option Bytes}
    {stamp : Stamp} {node : Node} (alike : Alike before after) (there : before.node? id = some node)
    (revised : ∀ other, after.occupant? other = (before.occupant? other).map
      (·.revise id fun occupant =>
      { occupant with bytes?, stamp }))
    (log : after.log = before.log ++
      [.contentChanged requestor id (before.path id) (before.stamp id) stamp]) :
    Narrates (some id) before after
      [.contentChanged requestor id (before.path id) (before.stamp id) stamp] := by
  have renewed := occupant?_revised revised there
  have now : after.stamp id = stamp := by simp [stamp_eq, renewed]
  have flag : after.isWritable id = before.isWritable id := by
    simp [isWritable_eq, renewed, occupant?_of_node? there]
  refine ⟨log, ?_, fun earlier _ => ?_⟩
  · intro event present
    cases List.mem_singleton.mp present
    exact ⟨rfl, rfl, now.symm⟩
  · rw [Account.replay_singleton]
    refine account_revised alike revised (fun other unequal => by simp [unequal]) fun _ => ?_
    simp [sighting, path_congr alike.place, now, flag]

theorem Narrates.setContent {id : NodeId} {requestor : String} {content : Bytes} {announce : Bool}
    (changed : fs.setContent id requestor content announce = .ok after) :
    ∃ news, Narrates (if announce then some id else none) fs after news ∧
      (news = [] ↔ announce = false) := by
  have alike := (setContent_alike changed).1
  have revised := occupant?_setContent changed
  obtain ⟨node, bytes, there, _, _, done⟩ := setContent_eq_ok.mp changed
  cases announce with
  | true =>
    have log : after.log = fs.log ++
        [.contentChanged requestor id (fs.path id) (fs.stamp id) (fs.lastStamp + 1)] := by
      rw [done, stamp_of_node? there]
      rfl
    exact ⟨_, .contentChanged alike there revised log, by simp⟩
  | false =>
    have kept : ∀ other, after.stamp other = fs.stamp other ∧
        after.isWritable other = fs.isWritable other := by
      intro other
      rw [stamp_eq, stamp_eq, isWritable_eq, isWritable_eq, revised]
      cases fs.occupant? other with
      | none => exact ⟨rfl, rfl⟩
      | some occupant =>
        simp only [Option.map_some, Occupant.revise]
        split <;> exact ⟨rfl, rfl⟩
    refine ⟨[], .silent ?_ alike.live (fun _ => path_congr alike.place)
      (fun other => (kept other).1)
      fun other => (kept other).2, by simp⟩
    rw [done]
    rfl

theorem Narrates.closeStream {stream : Stream} (closed : fs.closeStream stream = .ok after) :
    ∃ event, Narrates (some stream.node) fs after [event] := by
  obtain ⟨node, bytes, there, _, _, _, _, done⟩ := closeStream_eq_ok.mp closed
  have log : after.log = fs.log ++ [.contentChanged stream.requestor stream.node
      (fs.path stream.node) (fs.stamp stream.node) stream.stamp] := by
    rw [done, stamp_of_node? there]
  exact ⟨_, .contentChanged (closeStream_alike closed).1 there (occupant?_closeStream closed) log⟩

/-- Of a node that is not live the flag is told too, and nobody is to hear it. -/
theorem Narrates.setWritable (fs : FileSystem) (id : NodeId) (writable : Bool) :
    ∃ news, Narrates none fs (fs.setWritable id writable) news ∧
      (news = [] ↔ fs.isWritable id = writable) := by
  by_cases same : fs.isWritable id = writable
  · have still : fs.setWritable id writable = fs := if_pos same
    rw [still]
    exact ⟨[], .refl, by simp [same]⟩
  have alike := (@setWritable_alike fs id writable).1
  have revised := @occupant?_setWritable fs id writable
  refine ⟨[.writableChanged id (fs.path id) writable], ⟨?_, ?_, fun earlier _ => ?_⟩,
    by simp [same]⟩
  · have path : (fs.update id fun node => { node with writable }).path id = fs.path id :=
      path_congr fun other => place?_update other fun _ => rfl
    rw [← path]
    unfold FileSystem.setWritable
    rw [if_neg same]
    rfl
  · intro event present
    cases List.mem_singleton.mp present
    rfl
  · rw [Account.replay_singleton]
    refine account_revised alike revised (fun _ _ => Iff.rfl) fun alive => ?_
    obtain ⟨node, there⟩ : ∃ node, fs.node? id = some node :=
      ⟨_, List.getElem?_eq_getElem (lt_length_of_isLive alive)⟩
    have flagged := occupant?_revised revised there
    have flag : (fs.setWritable id writable).isWritable id = writable := by
      simp [isWritable_eq, flagged]
    have stamp : (fs.setWritable id writable).stamp id = fs.stamp id := by
      simp [stamp_eq, flagged, occupant?_of_node? there]
    simp only [sighting, path_congr alike.place, flag, stamp, Option.toList_none, List.nil_append]

/-- With a node, all that is below it is told to have another path. -/
theorem Narrates.rename {id : NodeId} {requestor text : String} (wasTree : Tree before)
    (isTree : Tree after) (renamed : before.rename id requestor text = .ok after) :
    ∃ news, Narrates none before after news ∧
      (news = [] ↔ ∃ name, Name.ofString text = .ok name ∧ before.name id = .ok name) := by
  have kept := occupant?_rename renamed
  obtain ⟨node, place, name, read, there, alive, placed, done⟩ := rename_cases renamed
  have here : before.place? id = some ⟨place.parent, place.name⟩ := by simp [place?, there, placed]
  have named : before.name id = .ok place.name := by simp [FileSystem.name, here]
  have live : before.isLive id = true := by simp [isLive, there, alive]
  rcases done with ⟨same, rfl⟩ | ⟨other, absent, rfl⟩
  · exact ⟨[], .refl, by simp [read, named, same]⟩
  have change : Renamed id place.parent name before _ :=
    .update there (.renamed requestor id place.name name) rfl
  refine ⟨[.renamed requestor id place.name name], ⟨rfl, ?_, fun earlier _ => ?_⟩,
    by simp [read, named, other]⟩
  · intro event present
    cases List.mem_singleton.mp present
    refine ⟨named, ?_⟩
    unfold FileSystem.name
    rw [change.place, if_pos rfl]
  · funext below
    rw [Account.replay_singleton]
    simp only [Account.hear, account_of_live live]
    cases alive : before.isLive below with
    | false =>
      rw [account_of_dead alive, account_of_dead ((change.live below).trans alive)]
      rfl
    | true =>
      rw [account_of_live alive, account_of_live ((change.live below).trans alive)]
      simp only [Option.map_some, sighting, change.path_eq wasTree isTree here live alive,
        isWritable_congr (kept below), stamp_congr (kept below), Option.toList_none,
        List.nil_append]

theorem log_bury (stack : List NodeId) : (fs.bury stack).log = fs.log := by
  fun_induction bury fs stack with
  | case1 => rfl
  | case2 fs id stack alive ih => exact ih
  | case3 fs id stack dead ih => exact ih

/-- With a node, all that is below it is told to be gone. -/
theorem Narrates.delete {id : NodeId} {requestor : String} (tree : Tree before)
    (deleted : before.delete id requestor = .ok after) :
    Narrates none before after [.deleted requestor id (before.path id)] := by
  have kept := occupant?_delete deleted
  obtain ⟨parent, _, live, change⟩ := tree.delete_eq_ok deleted
  have path : ∀ other, after.path other = before.path other := fun _ => path_congr change.place
  refine ⟨?_, ?_, fun earlier _ => ?_⟩
  · obtain ⟨_, _, rfl⟩ := delete_cases deleted
    have still : (before.detach id).log = before.log := by
      unfold detach
      split <;> rfl
    rw [note, log_bury, still]
  · intro event present
    cases List.mem_singleton.mp present
    rfl
  · funext other
    rw [Account.replay_singleton]
    simp only [Account.hear, account_of_live live]
    have remains := change.live other
    cases alive : before.isLive other with
    | false =>
      have dead : after.isLive other = false := by simpa [alive] using remains
      rw [account_of_dead alive, account_of_dead dead]
      rfl
    | true =>
      have inside : before.isAncestor id other = true ↔
          (before.path id).names <+: (before.path other).names :=
            tree.isAncestor_iff_prefix live alive
      rw [account_of_live alive]
      by_cases below : (before.path id).names <+: (before.path other).names
      · have dead : after.isLive other = false := by
          simpa [alive, inside.mpr below] using remains
        rw [account_of_dead dead]
        simp [sighting, below]
      · have apart : before.isAncestor id other = false := by
          simpa using fun above => below (inside.mp above)
        have shown : after.sighting earlier other = before.sighting earlier other :=
          sighting_congr (path other) (kept other) Iff.rfl
        rw [Option.toList_none, List.nil_append, account_of_live (remains.mpr ⟨alive, apart⟩),
          shown]
        simp [sighting, below]

end Depot.FileSystem

import Depot.Proofs.FileSystem.History
import Depot.Proofs.FileSystem.Occupant

set_option autoImplicit false

namespace Depot.FileSystem

def Timely (fs : FileSystem) : Prop :=
  ∀ id, fs.stamp id ≤ fs.lastStamp

/-- The counter has some more stamps before it starts again from 0. -/
def Affords (fs : FileSystem) (count : Nat) : Prop :=
  fs.lastStamp.toNat + count < UInt64.size

/-- What a command that takes some stamps from the counter does to stamps and files: new nodes get
the stamps that come next, at most one file gets another stamp, and apart from it at most one other
content is replaced. -/
structure Ages (drawn : Nat) (renewed replaced : Option NodeId) (before after : FileSystem) :
    Prop where
  grows : before.nodes.length ≤ after.nodes.length
  fresh : ∀ index, before.nodes.length + index < after.nodes.length →
    index < drawn ∧ after.stamp (before.nodes.length + index) = before.lastStamp.after (index + 1)
  stamp : ∀ id, id < before.nodes.length → renewed ≠ some id → after.stamp id = before.stamp id
  file : ∀ id, id < before.nodes.length → renewed ≠ some id → replaced ≠ some id →
    after.file? id = before.file? id
  -- stamps ascend unless the counter starts again
  last : before.Affords drawn → before.lastStamp ≤ after.lastStamp
  timely : before.Affords drawn → Timely before → Timely after
  renews : before.Affords drawn → Timely before →
    ∀ id, renewed = some id → before.stamp id < after.stamp id

variable {fs before after : FileSystem}

theorem Timely.empty : Timely .empty := by
  intro id
  cases id with
  | zero => exact UInt64.le_refl 1
  | succ id => exact UInt64.zero_le

theorem Affords.mono {count more : Nat} (affords : fs.Affords more) (le : count ≤ more) :
    fs.Affords count :=
  Nat.lt_of_le_of_lt (Nat.add_le_add_left le _) affords

theorem Affords.lt_next (affords : fs.Affords 1) : fs.lastStamp < fs.lastStamp + 1 :=
  Stamp.lt_after affords Nat.one_pos

theorem stamp_congr {id : NodeId} (same : after.occupant? id = before.occupant? id) :
    after.stamp id = before.stamp id := by
  rw [stamp_eq, same, ← stamp_eq]

theorem file?_congr {id : NodeId} (same : after.occupant? id = before.occupant? id) :
    after.file? id = before.file? id := by
  rw [file?_eq, same, ← file?_eq]

theorem stamp_of_node? {id : NodeId} {node : Node} (found : fs.node? id = some node) :
    fs.stamp id = node.stamp := by
  simp [stamp, found]

theorem stamp_eq_zero {id : NodeId} (beyond : fs.nodes.length ≤ id) : fs.stamp id = 0 := by
  simp [stamp, node?_eq_none beyond]

section Ages

variable {drawn : Nat} {renewed replaced : Option NodeId}

/-- No stamp falls. -/
theorem Ages.le (ages : Ages drawn renewed replaced before after) (affords : before.Affords drawn)
    (timely : Timely before) {id : NodeId} (inside : id < before.nodes.length) :
    before.stamp id ≤ after.stamp id := by
  by_cases own : renewed = some id
  · exact UInt64.le_of_lt (ages.renews affords timely id own)
  · exact UInt64.le_of_eq (ages.stamp id inside own).symm

/-- What is new has a greater stamp than all that was there. -/
theorem Ages.lt_fresh (ages : Ages drawn renewed replaced before after)
    (affords : before.Affords drawn) {id : NodeId} (new : before.nodes.length ≤ id)
    (known : id < after.nodes.length) : before.lastStamp < after.stamp id := by
  obtain ⟨index, rfl⟩ := Nat.exists_eq_add_of_le new
  obtain ⟨within, dated⟩ := ages.fresh index known
  rw [dated]
  exact Stamp.lt_after (affords.mono within) (Nat.succ_pos index)

/-- What is new has ascending stamps. -/
theorem Ages.fresh_lt_fresh (ages : Ages drawn renewed replaced before after)
    (affords : before.Affords drawn) {first second : NodeId} (new : before.nodes.length ≤ first)
    (lt : first < second) (known : second < after.nodes.length) :
    after.stamp first < after.stamp second := by
  obtain ⟨index, rfl⟩ := Nat.exists_eq_add_of_le new
  obtain ⟨other, rfl⟩ := Nat.exists_eq_add_of_le (Nat.le_trans new (Nat.le_of_lt lt))
  obtain ⟨within, dated⟩ := ages.fresh other known
  rw [dated, (ages.fresh index (Nat.lt_trans lt known)).2]
  exact Stamp.after_lt_after (affords.mono within) (by lia)

/-- No node is new and none gets a new stamp, whatever was handed out meanwhile. -/
theorem Ages.unrenewed (length : after.nodes.length = before.nodes.length)
    (last : before.Affords drawn → before.lastStamp ≤ after.lastStamp)
    (stamp : ∀ id, after.stamp id = before.stamp id)
    (file : ∀ id, replaced ≠ some id → after.file? id = before.file? id) :
    Ages drawn none replaced before after where
  grows := Nat.le_of_eq length.symm
  fresh index known := by omega
  stamp id _ _ := stamp id
  file id _ _ untouched := file id untouched
  last := last
  timely affords timely id := by
    rw [stamp]
    exact UInt64.le_trans (timely id) (last affords)
  renews _ _ id renewed := by cases renewed

theorem Ages.refl : Ages drawn none replaced fs fs :=
  .unrenewed rfl (fun _ => UInt64.le_refl _) (fun _ => rfl) fun _ _ => rfl

/-- New nodes get the stamps that come next. -/
theorem Ages.gains {contents : List (Option Bytes)} (gains : Gains contents before after) :
    Ages (after.nodes.length - before.nodes.length) none replaced before after where
  grows := gains.length ▸ Nat.le_add_right ..
  fresh index known := by
    have inside : index < contents.length := by
      have bounds := gains.length
      omega
    refine ⟨by omega, ?_⟩
    rw [stamp_eq, gains.new, List.getElem?_eq_getElem inside]
    rfl
  stamp id inside _ := stamp_congr (gains.old id inside)
  file id inside _ _ := file?_congr (gains.old id inside)
  last affords := by
    rw [gains.length, Nat.add_sub_cancel_left] at affords
    exact gains.last ▸ Stamp.le_after affords
  timely affords timely id := by
    rw [gains.length, Nat.add_sub_cancel_left] at affords
    rw [gains.last]
    by_cases early : id < before.nodes.length
    · rw [stamp_congr (gains.old id early)]
      exact UInt64.le_trans (timely id) (Stamp.le_after affords)
    · obtain ⟨index, rfl⟩ := Nat.exists_eq_add_of_le (Nat.le_of_not_lt early)
      rw [stamp_eq, gains.new]
      cases shown : contents[index]? with
      | none => exact UInt64.zero_le
      | some bytes? =>
        have inside := (List.getElem?_eq_some_iff.mp shown).1
        exact Stamp.after_le_after affords inside
  renews _ _ id renewed := by cases renewed

end Ages

section Revision

variable {id : NodeId} {change : Occupant → Occupant}
  (revised : ∀ other, after.occupant? other = (before.occupant? other).map (·.revise id change))

include revised

theorem occupant?_revised_of_ne {other : NodeId} (unequal : other ≠ id) :
    after.occupant? other = before.occupant? other := by
  rw [revised]
  cases held : before.occupant? other with
  | none => rfl
  | some occupant =>
    have own := node_of_occupant? held
    simp [Occupant.revise, own, unequal]

theorem occupant?_revised {node : Node} (found : before.node? id = some node) :
    after.occupant? id = some (change (node.occupant id)) := by
  rw [revised, occupant?_of_node? found]
  simp [Occupant.revise, Node.occupant]

theorem stamp_revised (keeps : ∀ occupant, (change occupant).stamp = occupant.stamp)
    (other : NodeId) : after.stamp other = before.stamp other := by
  rw [stamp_eq, stamp_eq, revised]
  cases before.occupant? other with
  | none => rfl
  | some occupant =>
    simp only [Option.map_some, Option.getD_some, Occupant.revise]
    split
    · exact keeps occupant
    · rfl

/-- One file gets a stamp that is newer than the one it had. -/
theorem Ages.renewal {drawn : Nat} {replaced : Option NodeId}
    (length : after.nodes.length = before.nodes.length) {node : Node}
    (found : before.node? id = some node)
    (newer : before.Affords drawn → Timely before →
      node.stamp < (change (node.occupant id)).stamp)
    (last : before.Affords drawn → before.lastStamp ≤ after.lastStamp)
    (past : (change (node.occupant id)).stamp ≤ after.lastStamp) :
    Ages drawn (some id) replaced before after := by
  have own : after.stamp id = (change (node.occupant id)).stamp := by
    rw [stamp_eq, occupant?_revised revised found]
    rfl
  have others : ∀ other, other ≠ id → after.occupant? other = before.occupant? other :=
    fun other unequal => occupant?_revised_of_ne revised unequal
  refine ⟨Nat.le_of_eq length.symm, fun index known => ?_, fun other _ renewed => ?_,
    fun other _ renewed _ => ?_, last, fun affords timely other => ?_,
    fun affords timely other renewed => ?_⟩
  · omega
  · exact stamp_congr (others other fun same => renewed (same ▸ rfl))
  · exact file?_congr (others other fun same => renewed (same ▸ rfl))
  · by_cases same : other = id
    · rw [same, own]
      exact past
    · rw [stamp_congr (others other same)]
      exact UInt64.le_trans (timely other) (last affords)
  · cases renewed
    rw [own, stamp_of_node? found]
    exact newer affords timely

end Revision

theorem Ages.setContent {id : NodeId} {requestor : String} {content : Bytes} {announce : Bool}
    (changed : fs.setContent id requestor content announce = .ok after) :
    Ages (if announce then 1 else 0) (if announce then some id else none)
      (if announce then none else some id) fs after := by
  have revised := occupant?_setContent changed
  obtain ⟨node, bytes, found, _, _, rfl⟩ := setContent_eq_ok.mp changed
  cases announce with
  | true =>
    refine .renewal revised (length_update ..) found (fun affords timely => ?_)
      (fun affords => UInt64.le_of_lt affords.lt_next) (UInt64.le_refl _)
    have known := timely id
    rw [stamp_of_node? found] at known
    exact UInt64.lt_of_le_of_lt known affords.lt_next
  | false =>
    refine .unrenewed (length_update ..) (fun _ => UInt64.le_refl _)
      (stamp_revised revised fun _ => rfl) fun other untouched => ?_
    exact file?_congr (occupant?_revised_of_ne revised fun same => untouched (same ▸ rfl))

theorem Ages.closeStream {stream : Stream} (closed : fs.closeStream stream = .ok after) :
    Ages 0 (some stream.node) none fs after := by
  have revised := occupant?_closeStream closed
  obtain ⟨node, bytes, found, _, _, newer, _, rfl⟩ := closeStream_eq_ok.mp closed
  exact .renewal revised (length_update ..) found (fun _ _ => newer)
    (fun _ => Stamp.le_max_left ..) (Stamp.le_max_right ..)

theorem lastStamp_setWritable (id : NodeId) (writable : Bool) :
    (fs.setWritable id writable).lastStamp = fs.lastStamp := by
  unfold FileSystem.setWritable
  split <;> rfl

theorem Ages.setWritable (id : NodeId) (writable : Bool) :
    Ages 0 none none fs (fs.setWritable id writable) := by
  obtain ⟨alike, file⟩ := @setWritable_alike fs id writable
  have last := (@lastStamp_setWritable fs id writable).symm
  refine .unrenewed alike.length (fun _ => UInt64.le_of_eq last) ?_ fun other _ => file other
  exact stamp_revised (@occupant?_setWritable fs id writable) fun _ => rfl

theorem Ages.rename {id : NodeId} {requestor text : String}
    (renamed : fs.rename id requestor text = .ok after) : Ages 0 none none fs after := by
  have same := occupant?_rename renamed
  obtain ⟨_, _, _, _, _, _, _, ⟨_, rfl⟩ | ⟨_, _, rfl⟩⟩ := rename_cases renamed
  · exact .refl
  · exact .unrenewed (length_update ..) (fun _ => UInt64.le_refl _)
      (fun other => stamp_congr (same other)) fun other _ => file?_congr (same other)

theorem lastStamp_bury (stack : List NodeId) : (fs.bury stack).lastStamp = fs.lastStamp := by
  fun_induction bury fs stack with
  | case1 => rfl
  | case2 fs id stack alive ih => exact ih
  | case3 fs id stack dead ih => exact ih

theorem lastStamp_detach (id : NodeId) : (fs.detach id).lastStamp = fs.lastStamp := by
  unfold detach
  split <;> rfl

theorem Ages.delete (tree : Tree fs) {id : NodeId} {requestor : String}
    (deleted : fs.delete id requestor = .ok after) : Ages 0 none none fs after := by
  have same := occupant?_delete deleted
  obtain ⟨_, _, _, change⟩ := tree.delete_eq_ok deleted
  have last : after.lastStamp = fs.lastStamp := by
    obtain ⟨_, _, rfl⟩ := delete_cases deleted
    exact (lastStamp_bury [id]).trans (lastStamp_detach id)
  exact .unrenewed change.length (fun _ => UInt64.le_of_eq last.symm)
    (fun other => stamp_congr (same other)) fun other _ => file?_congr (same other)

namespace Session

/-- The file that gets a new stamp by a command: its content is replaced, and this is announced, or
a stream on it is closed. -/
def renews (session : Session) (command : Command) : Option NodeId :=
  if session.accepts command then
    match command with
    | .setContent id _ _ true => some id
    | .closeStream index => (session.stream? index).map Stream.node
    | _ => none
  else none

/-- The number of stamps that a command takes from the counter. -/
def draws (session : Session) (command : Command) : Nat :=
  if session.accepts command then
    match command with
    | .createFile .. | .createDirectory _ =>
      (session.step command).files.nodes.length - session.files.nodes.length
    | .setContent _ _ _ true | .nextStamp => 1
    | _ => 0
  else 0

/-- While some commands are given, and after them, the counter has not handed out its last stamp. -/
def Below (session : Session) : List Command → Prop
  | [] => session.files.Affords 1
  | command :: rest =>
    session.files.Affords (session.draws command + 1) ∧ (session.step command).Below rest

instance Below.decidable (session : Session) :
    (commands : List Command) → Decidable (session.Below commands)
  | [] => inferInstanceAs (Decidable (_ < _))
  | command :: rest =>
    have := decidable (session.step command) rest
    inferInstanceAs (Decidable (_ < _ ∧ _))

end Session

/-- The file whose content a command is to replace under its old stamp. -/
def Command.replaces : Command → Option NodeId
  | setContent id _ _ false => some id
  | _ => none

namespace Session

variable {session : Session}

/-- One step of a history. -/
theorem step_ages (tree : Tree session.files) (command : Command) :
    Ages (session.draws command) (session.renews command) command.replaces session.files
      (session.step command).files := by
  rcases session.step_cases command with ⟨refused, same⟩ | ⟨accepted, made⟩
  · have none : session.renews command = none := if_neg (by simp [refused])
    rw [same, none]
    exact .refl
  · unfold renews draws
    rw [if_pos accepted, if_pos accepted]
    generalize (session.step command).files = after at made ⊢
    cases made with
    | createFile made =>
      obtain ⟨_, _, gains⟩ := Gains.createFile made
      exact .gains gains
    | createDirectory made =>
      obtain ⟨_, gains⟩ := Gains.createDirectory made
      exact .gains gains
    | rename renamed =>
      exact .rename renamed
    | @setContent id requestor content announce after changed =>
      have ages := Ages.setContent changed
      cases announce <;> exact ages
    | setWritable => exact .setWritable _ _
    | delete deleted => exact .delete tree deleted
    | nextStamp =>
      exact .unrenewed rfl (fun affords => UInt64.le_of_lt affords.lt_next) (fun _ => rfl)
        fun _ _ => rfl
    | openStream opened => exact .refl
    | write => exact .refl
    | closeStream opened closed =>
      simp only [opened, Option.map_some]
      exact .closeStream closed
    | closeNothing absent =>
      simp only [absent, Option.map_none]
      exact .refl
    | dropStream => exact .refl

/-- A file gets one new stamp at a time. -/
theorem draws_of_renews {command : Command} {id : NodeId}
    (renewed : session.renews command = some id) : session.draws command ≤ 1 := by
  unfold renews at renewed
  unfold draws
  split
  · next accepted =>
    rw [if_pos accepted] at renewed
    split
    all_goals lia
  · exact Nat.zero_le 1

/-- What holds below the last stamp for more commands holds for fewer. -/
theorem below_append {first second : List Command} :
    session.Below (first ++ second) → session.Below first ∧ (session.run first).Below second := by
  intro below
  induction first generalizing session with
  | nil =>
    refine ⟨?_, below⟩
    cases second with
    | nil => exact below
    | cons command rest => exact below.1.mono (Nat.le_add_left ..)
  | cons command rest ih =>
    obtain ⟨earlier, later⟩ := ih below.2
    exact ⟨⟨below.1, earlier⟩, later⟩

theorem Below.draws {command : Command} {rest : List Command}
    (below : session.Below (command :: rest)) : session.files.Affords (session.draws command) :=
  below.1.mono (Nat.le_succ _)

theorem Below.last {commands : List Command} (below : session.Below commands) :
    (session.run commands).files.Affords 1 := by
  rw [← List.append_nil commands] at below
  exact (below_append below).2

end Session

/-- What some commands do to stamps and files. A file that has its stamp again has not changed,
unless it was told to keep its stamp. -/
structure Elapses (commands : List Command) (before after : FileSystem) : Prop where
  grows : before.nodes.length ≤ after.nodes.length
  last : before.lastStamp ≤ after.lastStamp
  timely : Timely after
  stamp : ∀ id, id < before.nodes.length → before.stamp id ≤ after.stamp id
  file : ∀ id, id < before.nodes.length → (∀ command ∈ commands, command.replaces ≠ some id) →
    after.stamp id = before.stamp id → after.file? id = before.file? id

namespace Session

variable {session : Session}

/-- All steps of a history, by induction on the commands: if a stamp is the same in the end, then no
step has raised it. -/
theorem run_elapses (tree : Tree session.files) (timely : Timely session.files)
    {commands : List Command} (below : session.Below commands) :
    Elapses commands session.files (session.run commands).files := by
  induction commands generalizing session with
  | nil =>
    exact ⟨Nat.le_refl _, UInt64.le_refl _, timely, fun _ _ => UInt64.le_refl _,
      fun _ _ _ _ => rfl⟩
  | cons command rest ih =>
    have first := step_ages tree command
    have affords := below.draws
    have others := ih (step_continues tree command).tree (first.timely affords timely) below.2
    refine ⟨Nat.le_trans first.grows others.grows, UInt64.le_trans (first.last affords) others.last,
      others.timely, fun id inside => ?_, fun id inside untouched same => ?_⟩
    · have between := others.stamp id (Nat.lt_of_lt_of_le inside first.grows)
      exact UInt64.le_trans (first.le affords timely inside) between
    · have between := Nat.lt_of_lt_of_le inside first.grows
      have now := first.le affords timely inside
      have later := others.stamp id between
      have final : (session.run (command :: rest)).files.stamp id =
          ((session.step command).run rest).files.stamp id := rfl
      have still : (session.step command).files.stamp id = session.files.stamp id := by lia
      have kept : session.renews command ≠ some id := by
        intro renewed
        have raised := first.renews affords timely id renewed
        lia
      have unchanged := first.file id inside kept (untouched command List.mem_cons_self)
      rw [← unchanged]
      exact others.file id between
        (fun other present => untouched other (List.mem_cons_of_mem _ present)) (by lia)

theorem run_timely {commands : List Command} (below : start.Below commands) :
    Timely (start.run commands).files :=
  (run_elapses Tree.empty Timely.empty below).timely

/-- Stamps tell what is stale, as long as the counter stays below the last stamp: each stamp that is
handed out is greater than all that nodes have had, that were handed out and that were committed;
the stamp of a node rises whenever its content is replaced with an announcement or by a stream, and
never changes otherwise; and the same stamp stands for the same content, as long as no content is
replaced without an announcement. -/
theorem run_stamps (first second : List Command) (below : start.Below (first ++ second)) :
    let earlier := start.run first
    let later := start.run (first ++ second)
    let next := later.files.nextStamp.1
    (∀ id, earlier.files.stamp id < next) ∧
    (second.head? = some .nextStamp → earlier.files.nextStamp.1 < next) ∧
    (∀ index stream, second.head? = some (.closeStream index) →
      earlier.stream? index = some stream →
      earlier.accepts (.closeStream index) = true → stream.stamp < next) ∧
    (∀ id, id < earlier.files.nodes.length → earlier.files.stamp id ≤ later.files.stamp id) ∧
    (∀ command id, id < later.files.nodes.length →
      (later.renews command = some id →
        later.files.stamp id < (later.step command).files.stamp id) ∧
      (later.renews command ≠ some id →
        (later.step command).files.stamp id = later.files.stamp id)) ∧
    (∀ id file, (∀ command ∈ second, command.replaces ≠ some id) →
      earlier.files.file? id = some file → later.files.stamp id = earlier.files.stamp id →
      later.files.file? id = some file) := by
  intro earlier later next
  obtain ⟨before, onwards⟩ := below_append below
  have tree : Tree earlier.files := tree_run first
  have timely : Timely earlier.files := run_timely before
  have same : later = earlier.run second := run_append ..
  have elapses : Elapses second earlier.files later.files := same ▸ run_elapses tree timely onwards
  have greatest : later.files.lastStamp < next := below.last.lt_next
  -- what comes after the first of the commands in between
  have onward : ∀ command, second.head? = some command →
      (earlier.step command).files.lastStamp < next := by
    intro command head
    obtain ⟨rest, rfl⟩ := List.head?_eq_some_iff.mp head
    have others := run_elapses (step_continues tree command).tree
      ((step_ages tree command).timely onwards.draws timely) onwards.2
    have final : later = (earlier.step command).run rest := same
    exact UInt64.lt_of_le_of_lt (final ▸ others.last) greatest
  refine ⟨fun id => ?_, fun head => onward _ head, fun index stream head opened accepted => ?_,
    elapses.stamp, fun command id inside => ?_, fun id file untouched held still => ?_⟩
  · exact UInt64.lt_of_le_of_lt (UInt64.le_trans (timely id) elapses.last) greatest
  · obtain ⟨after, closed⟩ := (accepts_closeStream opened).mp accepted
    have passed := onward _ head
    rw [step_closeStream opened closed] at passed
    obtain ⟨_, _, _, _, _, _, _, rfl⟩ := closeStream_eq_ok.mp closed
    exact UInt64.lt_of_le_of_lt (Stamp.le_max_right ..) passed
  · have ages := step_ages (tree_run (first ++ second)) command
    refine ⟨fun renewed => ?_, ages.stamp id inside⟩
    exact ages.renews (below.last.mono (draws_of_renews renewed)) (run_timely below) id renewed
  · have inside : id < earlier.files.nodes.length := by
      by_cases inside : id < earlier.files.nodes.length
      · exact inside
      · simp [file?, node?_eq_none (Nat.le_of_not_lt inside)] at held
    rw [elapses.file id inside untouched still, held]

/-- A file gets a stamp that was handed out before. -/
def writing : List Command :=
  [.createFile "a" [1], .nextStamp, .openStream 1 "t" 9, .write 0 [2]]

def changing : List Command :=
  [.closeStream 0, .setContent 1 "t" [3] true, .createFile "b/c" []]

theorem run_stamps_changed :
    start.Below (writing ++ changing) ∧
      (start.run writing).files.stamp 1 < (start.run (writing ++ changing)).files.nextStamp.1 ∧
      (start.run (writing ++ changing)).files.nextStamp.1 = 13 ∧
      (start.run (writing ++ changing)).files.stamp 1 <
        ((start.run (writing ++ changing)).step (.setContent 1 "t" [4] true)).files.stamp 1 := by
  have below : start.Below (writing ++ changing) := by decide +kernel
  obtain ⟨fresh, _, _, _, single, _⟩ := run_stamps writing changing below
  obtain ⟨raised, _⟩ := single (.setContent 1 "t" [4] true) 1 (by decide +kernel)
  exact ⟨below, fresh 1, by decide +kernel, raised (by decide +kernel)⟩

def exhausting : List Command :=
  [.createFile "a" [1], .openStream 1 "t" 18446744073709551615, .write 0 [1], .closeStream 0]

end Session

end Depot.FileSystem

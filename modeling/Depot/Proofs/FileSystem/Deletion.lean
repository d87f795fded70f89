import Depot.Proofs.FileSystem.Update

set_option autoImplicit false

namespace Depot.FileSystem

variable {fs before after : FileSystem}

section Kill

variable (id other : NodeId)

@[simp]
theorem length_kill : (fs.kill id).nodes.length = fs.nodes.length :=
  length_update ..

@[simp]
theorem place?_kill : (fs.kill id).place? other = fs.place? other :=
  place?_update other fun _ => rfl

@[simp]
theorem children_kill : (fs.kill id).children other = fs.children other :=
  children_update other fun _ => rfl

@[simp]
theorem isDirectory_kill : (fs.kill id).isDirectory other = fs.isDirectory other :=
  isDirectory_update other fun _ => Iff.rfl

@[simp]
theorem file?_kill : (fs.kill id).file? other = fs.file? other :=
  file?_update other fun _ => ⟨rfl, rfl⟩

theorem isLive_kill : (fs.kill id).isLive other = (fs.isLive other && decide (other ≠ id)) := by
  simp only [isLive, kill, node?_update]
  by_cases same : other = id
  · cases fs.node? other <;> simp [same]
  · simp [same]

end Kill

/-- Two file systems differ only in which nodes were deleted. -/
structure Buried (before after : FileSystem) : Prop where
  length : after.nodes.length = before.nodes.length
  place : ∀ id, after.place? id = before.place? id
  children : ∀ id, after.children id = before.children id
  kind : ∀ id, after.isDirectory id = before.isDirectory id
  file : ∀ id, after.file? id = before.file? id
  created : after.createdNodes = before.createdNodes
  live : ∀ id, after.isLive id = true → before.isLive id = true

theorem bury_buried (fs : FileSystem) (stack : List NodeId) : Buried fs (fs.bury stack) := by
  fun_induction bury fs stack with
  | case1 => exact ⟨rfl, fun _ => rfl, fun _ => rfl, fun _ => rfl, fun _ => rfl, rfl, fun _ => id⟩
  | case2 fs id stack alive ih =>
    refine ⟨by simp [ih.length], fun other => by simp [ih.place], fun other =>
      by simp [ih.children],
      fun other => by simp [ih.kind], fun other => by simp [ih.file], ih.created,
      fun other live => ?_⟩
    have marked := ih.live other live
    rw [isLive_kill] at marked
    exact (Bool.and_eq_true_iff.mp marked).1
  | case3 fs id stack dead ih => exact ih

/-- What is deleted lies below the stack: it has each property of the nodes there that is handed
down to what a node lists. -/
theorem of_bury {fs : FileSystem} {stack : List NodeId} (below : NodeId → Prop)
    (stacked : ∀ id ∈ stack, below id)
    (handed : ∀ id child, below id → child ∈ fs.children id → below child) {id : NodeId}
    (alive : fs.isLive id = true) (dead : (fs.bury stack).isLive id = false) : below id := by
  fun_induction bury fs stack with
  | case1 fs => simp [alive] at dead
  | case2 fs first stack firstLive ih =>
    by_cases same : id = first
    · exact same ▸ stacked first List.mem_cons_self
    · refine ih ?_ ?_ ?_ dead
      · intro other present
        rcases List.mem_append.mp present with listed | waiting
        · exact handed first other (stacked first List.mem_cons_self) (List.mem_reverse.mp listed)
        · exact stacked other (List.mem_cons_of_mem _ waiting)
      · intro other child held listed
        rw [children_kill] at listed
        exact handed other child held listed
      · simp [isLive_kill, alive, same]
  | case3 fs first stack firstDead ih =>
    exact ih (fun other waiting => stacked other (List.mem_cons_of_mem _ waiting)) handed alive dead

/-- What was on the stack is deleted in the end, and so is what the deleted nodes list. The second
is the invariant of the loop, with the exception of what is still on the stack. -/
theorem bury_closed (fs : FileSystem) (stack : List NodeId)
    (closed : ∀ id child, child ∈ fs.children id → fs.isLive id = false →
      fs.isLive child = false ∨ child ∈ stack) :
    (∀ id ∈ stack, (fs.bury stack).isLive id = false) ∧
      ∀ id child, child ∈ fs.children id → (fs.bury stack).isLive id = false →
        (fs.bury stack).isLive child = false := by
  fun_induction bury fs stack with
  | case1 fs =>
    refine ⟨fun id present => (nomatch present), fun id child listed dead => ?_⟩
    rcases closed id child listed dead with dead | present
    · exact dead
    · cases present
  | case2 fs first stack firstLive ih =>
    have step : ∀ id child, child ∈ (fs.kill first).children id →
        (fs.kill first).isLive id = false →
        (fs.kill first).isLive child = false ∨ child ∈ (fs.children first).reverse ++ stack := by
      intro id child listed dead
      rw [children_kill] at listed
      by_cases same : id = first
      · subst same
        exact .inr (List.mem_append_left _ (List.mem_reverse.mpr listed))
      · have before : fs.isLive id = false := by simpa [isLive_kill, same] using dead
        rcases closed id child listed before with dead | present
        · exact .inl (by simp [isLive_kill, dead])
        · rcases List.mem_cons.mp present with rfl | waiting
          · exact .inl (by simp [isLive_kill])
          · exact .inr (List.mem_append_right _ waiting)
    obtain ⟨stacked, handed⟩ := ih step
    refine ⟨fun id present => ?_, fun id child listed => handed id child (by simpa using listed)⟩
    rcases List.mem_cons.mp present with rfl | waiting
    · have marked : (fs.kill id).isLive id = false := by simp [isLive_kill]
      have kept := (bury_buried (fs.kill id) ((fs.children id).reverse ++ stack)).live id
      rw [marked] at kept
      simpa using kept
    · exact stacked id (List.mem_append_right _ waiting)
  | case3 fs first stack firstDead ih =>
    have dead : fs.isLive first = false := by simpa using firstDead
    have step : ∀ id child, child ∈ fs.children id → fs.isLive id = false →
        fs.isLive child = false ∨ child ∈ stack := by
      intro id child listed idDead
      rcases closed id child listed idDead with childDead | present
      · exact .inl childDead
      · rcases List.mem_cons.mp present with rfl | waiting
        · exact .inl dead
        · exact .inr waiting
    obtain ⟨stacked, handed⟩ := ih step
    refine ⟨fun id present => ?_, handed⟩
    rcases List.mem_cons.mp present with rfl | waiting
    · have kept := (bury_buried fs stack).live id
      rw [dead] at kept
      simpa using kept
    · exact stacked id waiting

section Detach

variable {id parent : NodeId} {name : Name} (placed : fs.place? id = some ⟨parent, name⟩)
  (other : NodeId)

include placed

theorem detach_eq : fs.detach id = fs.update parent (Node.relist (·.filter (· ≠ id))) := by
  simp [detach, placed]

theorem children_detach (directory : fs.isDirectory parent = true) :
    (fs.detach id).children other =
      if other = parent then (fs.children other).filter (· ≠ id) else fs.children other := by
  rw [detach_eq placed, children_relisted other directory]

end Detach

/-- What a deletion that is not refused does: the node is listed no more, and exactly what was live
and below it is live no more. -/
structure Deleted (id parent : NodeId) (before after : FileSystem) : Prop where
  length : after.nodes.length = before.nodes.length
  place : ∀ other, after.place? other = before.place? other
  children : ∀ other, after.children other =
    if other = parent then (before.children other).filter (· ≠ id) else before.children other
  kind : ∀ other, after.isDirectory other = before.isDirectory other
  file : ∀ other, after.file? other = before.file? other
  created : after.createdNodes = before.createdNodes
  live : ∀ other, after.isLive other = true ↔
    before.isLive other = true ∧ before.isAncestor id other = false

theorem Tree.isLive_bury (tree : Tree fs) {id parent : NodeId} {name : Name}
    (placed : fs.place? id = some ⟨parent, name⟩) (alive : fs.isLive id = true) (other : NodeId) :
    ((fs.detach id).bury [id]).isLive other = true ↔
      fs.isLive other = true ∧ fs.isAncestor id other = false := by
  have held : fs.parent? id = some parent := parent?_eq_some.mpr ⟨name, placed⟩
  have directory : fs.isDirectory parent = true :=
    isDirectory_of_children (tree.held id parent alive held).2
  have kept : ∀ node, (fs.detach id).isLive node = fs.isLive node := by
    intro node
    rw [detach_eq placed, isLive_relisted]
  have listed : ∀ node child, child ∈ (fs.detach id).children node → child ∈ fs.children node := by
    intro node child listed
    rw [children_detach placed node directory] at listed
    split at listed
    · exact (List.mem_filter.mp listed).1
    · exact listed
  constructor
  · intro live
    have before := (bury_buried _ _).live other live
    rw [kept] at before
    refine ⟨before, ?_⟩
    -- along the chain of parents from `other` up to `id`, each node is dead because its parent is
    have closed := bury_closed (fs.detach id) [id] fun node child present dead => by
      rw [kept] at dead ⊢
      rw [(tree.listed node child (listed node child present)).2]
      exact .inl dead
    obtain ⟨stacked, handed⟩ := closed
    have buried : ∀ node, fs.isLive node = true → fs.isAncestor id node = true →
        ((fs.detach id).bury [id]).isLive node = false := by
      intro node
      induction node using Nat.strongRecOn with
      | ind node ih =>
        intro nodeLive above
        by_cases same : node = id
        · exact stacked node (by simp [same])
        · rcases isAncestor_iff.mp above with equal | ⟨holder, nodeHeld, less, above⟩
          · exact absurd equal.symm same
          · obtain ⟨holderLive, nodeListed⟩ := tree.held node holder nodeLive nodeHeld
            refine handed holder node ?_ (ih holder less holderLive above)
            rw [children_detach placed holder directory]
            split
            · exact List.mem_filter.mpr ⟨nodeListed, by simpa using same⟩
            · exact nodeListed
    cases above : fs.isAncestor id other with
    | false => rfl
    | true => simp [buried other before above] at live
  · rintro ⟨before, apart⟩
    by_cases live : ((fs.detach id).bury [id]).isLive other = true
    · exact live
    · have below := of_bury (fun node => fs.isAncestor id node = true)
        (fun node present => by simp [List.mem_singleton.mp present])
        (fun node child above present => by
          have childHeld := (tree.listed node child (listed node child present)).1
          exact (tree.isAncestor_child childHeld).mpr (.inr above))
        ((kept other).trans before) (Bool.eq_false_iff.mpr live)
      simp [apart] at below

/-- What a deletion that is not refused does. -/
theorem delete_cases {id : NodeId} {requestor : String}
    (deleted : fs.delete id requestor = .ok after) :
    id ≠ rootId ∧ fs.isLive id = true ∧
      after = ((fs.detach id).bury [id]).note (.deleted requestor id (fs.path id)) := by
  unfold delete at deleted
  by_cases rooted : id = rootId
  · simp [rooted, bind, Except.bind, throw, throwThe, MonadExceptOf.throw] at deleted
  · cases found : fs.liveNode id with
    | error fault => simp [rooted, found, bind, Except.bind] at deleted
    | ok node =>
      simp only [rooted, found, bind, Except.bind, if_false, pure, Except.pure] at deleted
      cases deleted
      exact ⟨rooted, isLive_of_liveNode found, rfl⟩

theorem Tree.delete_eq_ok (tree : Tree fs) {id : NodeId} {requestor : String}
    (deleted : fs.delete id requestor = .ok after) :
    ∃ parent, fs.parent? id = some parent ∧ fs.isLive id = true ∧ Deleted id parent fs after := by
  obtain ⟨unequal, alive, rfl⟩ := delete_cases deleted
  obtain ⟨parent, held⟩ := tree.exists_parent (lt_length_of_isLive alive) unequal
  obtain ⟨name, placed⟩ := parent?_eq_some.mp held
  have directory : fs.isDirectory parent = true :=
    isDirectory_of_children (tree.held id parent alive held).2
  have buried := bury_buried (fs.detach id) [id]
  refine ⟨parent, held, alive, ?_, ?_, ?_, ?_, ?_, ?_, ?_⟩
  · rw [nodes_note, buried.length, detach_eq placed, length_update]
  · intro other
    rw [place?_note, buried.place, detach_eq placed, place?_relisted]
  · intro other
    rw [children_note, buried.children, children_detach placed other directory]
  · intro other
    rw [isDirectory_note, buried.kind, detach_eq placed, isDirectory_relisted]
  · intro other
    rw [file?_note, buried.file, detach_eq placed, file?_relisted]
  · rw [createdNodes_note_other _ rfl, buried.created, detach_eq placed, createdNodes_update]
  · intro other
    rw [isLive_note]
    exact tree.isLive_bury placed alive other

namespace Deleted

variable {id parent : NodeId} (deleted : Deleted id parent before after)

include deleted

theorem parent? (other : NodeId) : after.parent? other = before.parent? other :=
  parent?_congr (deleted.place other)

theorem mem_children {other child : NodeId} (listed : child ∈ after.children other) :
    child ∈ before.children other ∧ (other = parent → child ≠ id) := by
  rw [deleted.children] at listed
  split at listed
  · next same =>
    obtain ⟨present, unequal⟩ := List.mem_filter.mp listed
    exact ⟨present, fun _ => by simpa using unequal⟩
  · next apart => exact ⟨listed, fun same => absurd same apart⟩

theorem tree (tree : Tree before) (held : before.parent? id = some parent) : Tree after where
  rootLive := by
    rw [deleted.live]
    refine ⟨tree.rootLive, ?_⟩
    have below := tree.lt_of_parent held
    cases above : before.isAncestor id rootId with
    | false => rfl
    | true =>
      have equal := isAncestor_root_iff.mp above
      rw [equal] at below
      cases below
  rootDirectory := by rw [deleted.kind, tree.rootDirectory]
  rootUnplaced := by rw [deleted.place, tree.rootUnplaced]
  placed other inside unequal := by
    rw [deleted.length] at inside
    rw [deleted.place]
    exact tree.placed other inside unequal
  listed other child listed := by
    obtain ⟨present, unequal⟩ := deleted.mem_children listed
    obtain ⟨childHeld, same⟩ := tree.listed other child present
    refine ⟨(deleted.parent? child).trans childHeld, ?_⟩
    have apart : id ≠ child := by
      rintro rfl
      rw [held] at childHeld
      exact unequal (Option.some.inj childHeld).symm rfl
    have above : before.isAncestor id child = before.isAncestor id other := by
      rw [Bool.eq_iff_iff, tree.isAncestor_child childHeld]
      simp [apart]
    rw [Bool.eq_iff_iff, deleted.live, deleted.live, same, above]
  held other holder alive otherHeld := by
    rw [deleted.parent?] at otherHeld
    obtain ⟨before, apart⟩ := (deleted.live other).mp alive
    obtain ⟨holderLive, listed⟩ := tree.held other holder before otherHeld
    have unequal : other ≠ id := by
      rintro rfl
      simp at apart
    refine ⟨(deleted.live holder).mpr ⟨holderLive, ?_⟩, ?_⟩
    · cases above : FileSystem.isAncestor _ id holder with
      | false => rfl
      | true => simp [(tree.isAncestor_child otherHeld).mpr (.inr above)] at apart
    · rw [deleted.children]
      split
      · exact List.mem_filter.mpr ⟨listed, by simpa using unequal⟩
      · exact listed
  ascending other := by
    rw [deleted.children]
    split
    · exact (tree.ascending other).filter _
    · exact tree.ascending other
  distinct other left right name alive leftListed rightListed := by
    rw [deleted.place, deleted.place]
    exact tree.distinct other left right name ((deleted.live other).mp alive).1
      (deleted.mem_children leftListed).1 (deleted.mem_children rightListed).1
  numbered := by rw [deleted.created, deleted.length, tree.numbered]

theorem follows : Follows [id] before after where
  grows := Nat.le_of_eq deleted.length.symm
  created other beyond inside := by
    have same := deleted.length
    omega
  parent other _ := deleted.parent? other
  kind other _ := deleted.kind other
  place other _ _ := deleted.place other
  file other _ _ := deleted.file other
  live other _ alive := ((deleted.live other).mp alive).1
  killed other alive dead := by
    refine ⟨id, List.mem_singleton_self id, ?_⟩
    rw [isAncestor_congr fun node _ => deleted.parent? node]
    cases above : before.isAncestor id other with
    | true => rfl
    | false => simp [(deleted.live other).mpr ⟨alive, above⟩] at dead

end Deleted

end Depot.FileSystem

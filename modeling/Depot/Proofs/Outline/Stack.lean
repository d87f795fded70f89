import Depot.Proofs.Outline.Site

set_option autoImplicit false

/-
A builder that keeps a stack of lists. A container that is entered again is taken out of the list
around it, and put back at the index where it was found once it is left. A stack without a level and
an index outside of a list would stop the program; neither is ever met, and the stack does what a
builder does.
-/

namespace Depot.Outline

variable {α : Type}

def held : Outline α → List (Outline α)
  | leaf _ => []
  | container _ _ children => children

/-- Takes a tree out of a list. There is none to take at an index outside of the list. -/
def takeOut? (index : Nat) (trees : List (Outline α)) : Option (Outline α × List (Outline α)) :=
  trees[index]?.map fun tree => (tree, trees.eraseIdx index)

/-- Puts a tree into a list: at an index, which must not be outside of the list, or at its end. -/
def putIn? (index? : Option Nat) (tree : Outline α) (trees : List (Outline α)) :
    Option (List (Outline α)) :=
  match index? with
  | some index => if index ≤ trees.length then some (trees.insertIdx index tree) else none
  | none => some (trees ++ [tree])

/-- A level of a stack: the open container, if it is not the outermost level; the index where it was
found in the level around it, if it was there before; and what it holds so far. -/
structure Level (α : Type) where
  container? : Option Key
  index? : Option Nat
  children : List (Outline α)

namespace Level

def root (children : List (Outline α)) : Level α :=
  ⟨none, none, children⟩

/-- Puts the container of a level into the level around it. -/
def close? (level parent : Level α) : Option (Level α) :=
  match level.container? with
  | none => some parent
  | some (kind, name) => do
    let children ← putIn? level.index? (container kind name level.children) parent.children
    some { parent with children }

/-- Closes a level and all around it but the last. -/
def closeAll? (level : Level α) : List (Level α) → Option (Level α)
  | [] => some level
  | parent :: outer => do
    let parent ← level.close? parent
    parent.closeAll? outer

end Level

/-- A stack of levels, the innermost first, and the first call that was wrong. -/
structure Stack (α : Type) where
  levels : List (Level α)
  fault? : Option Fault

namespace Stack

def start : Stack α := ⟨[.root []], none⟩

def fail (stack : Stack α) (fault : Fault) : Stack α :=
  { stack with fault? := stack.fault?.or (some fault) }

def push? (stack : Stack α) (tree : Outline α) : Option (Stack α) :=
  match stack.levels with
  | [] => none
  | level :: outer =>
    some { stack with levels := { level with children := level.children ++ [tree] } :: outer }

/-- Opens the container of the given kind and name. -/
def enter? (stack : Stack α) (kind : ContainerKind) (text : String) : Option (Stack α) :=
  match Name.ofString text with
  | .error error => some (stack.fail (.invalidName text error))
  | .ok name =>
    match stack.levels with
    | [] => none
    | level :: outer =>
      match level.children.findIdx? (isContainer kind name) with
      | none => some { stack with levels := ⟨some (kind, name), none, []⟩ :: level :: outer }
      | some index => do
        let (tree, children) ← takeOut? index level.children
        some { stack with levels :=
          ⟨some (kind, name), some index, tree.held⟩ :: { level with children } :: outer }

def leave? (stack : Stack α) : Option (Stack α) :=
  match stack.levels with
  | [] => some stack
  | [_] => some (stack.fail .unmatchedEnd)
  | level :: parent :: outer => do
    let parent ← level.close? parent
    some { stack with levels := parent :: outer }

/-- The tree, unless a call was wrong. -/
def finish? (stack : Stack α) : Option (Except Fault (List (Outline α))) :=
  match stack.fault?, stack.levels with
  | some fault, _ => some (.error fault)
  | none, [] => some (.ok [])
  | none, level :: outer => do
    let root ← level.closeAll? outer
    some (.ok root.children)

def call? (stack : Stack α) : Call α → Option (Stack α)
  | .leaf (.ok value) => stack.push? (leaf value)
  | .leaf (.error fault) => some (stack.fail fault)
  | .enter kind text => stack.enter? kind text
  | .leave => stack.leave?

/-- What is built of some calls, if nothing stops the program. -/
def build? (made : List (Call α)) : Option (Except Fault (List (Outline α))) := do
  let stack ← made.foldlM call? start
  stack.finish?

end Stack

section Lists

variable {kind : ContainerKind} {name : Name} {before after trees : List (Outline α)}

theorem isContainer_eq_true {tree : Outline α} :
    isContainer kind name tree = true ↔ ∃ inner, tree = container kind name inner := by
  cases tree with
  | leaf value => simp [isContainer]
  | container kind' name' inner => simp [isContainer]

theorem not_isContainer (absent : (kind, name) ∉ keys trees) :
    ∀ tree ∈ trees, isContainer kind name tree = false := by
  intro tree present
  refine Bool.eq_false_iff.mpr fun same => absent ?_
  obtain ⟨inner, rfl⟩ := isContainer_eq_true.mp same
  exact mem_keys.mpr ⟨inner, present⟩

theorem findIdx?_absent (absent : (kind, name) ∉ keys trees) :
    trees.findIdx? (isContainer kind name) = none :=
  List.findIdx?_eq_none_iff.mpr (not_isContainer absent)

theorem findIdx?_here (absent : (kind, name) ∉ keys before) (inner : List (Outline α)) :
    (before ++ container kind name inner :: after).findIdx? (isContainer kind name) =
      some before.length := by
  have here : isContainer kind name (container kind name inner) = true :=
    isContainer_eq_true.mpr ⟨inner, rfl⟩
  rw [List.findIdx?_append, findIdx?_absent absent, List.findIdx?_cons, here]
  simp

theorem takeOut?_here (tree : Outline α) :
    takeOut? before.length (before ++ tree :: after) = some (tree, before ++ after) := by
  have there : (before ++ tree :: after)[before.length]? = some tree := by simp
  have without : (before ++ tree :: after).eraseIdx before.length = before ++ after := by
    rw [List.eraseIdx_append_of_length_le (Nat.le_refl _), Nat.sub_self, List.eraseIdx_cons_zero]
  rw [takeOut?, there, Option.map_some, without]

theorem insertIdx_here (tree : Outline α) :
    (before ++ after).insertIdx before.length tree = before ++ tree :: after := by
  induction before with
  | nil => rfl
  | cons first before ih => exact congrArg (first :: ·) ih

theorem putIn?_here (tree : Outline α) :
    putIn? (some before.length) tree (before ++ after) = some (before ++ tree :: after) := by
  have inside : before.length ≤ (before ++ after).length := by
    rw [List.length_append]
    omega
  simp only [putIn?, if_pos inside, insertIdx_here]

end Lists

/-- The levels of a stack hold what a cursor is in, without the containers that are open, and the
index of each leads back to where it was. -/
inductive Stands : List (Frame α) → List (Outline α) → List (Level α) → Prop where
  | root (children : List (Outline α)) : Stands [] children [.root children]
  | inside {frame : Frame α} {frames : List (Frame α)} {index? : Option Nat}
    {outer : List (Level α)} (children : List (Outline α))
    (around : Stands frames (frame.before ++ frame.after) outer)
    (returns : ∀ tree, putIn? index? tree (frame.before ++ frame.after) =
      some (frame.before ++ tree :: frame.after)) :
    Stands (frame :: frames) children (⟨some frame.key, index?, children⟩ :: outer)

namespace Stands

variable {frame : Frame α} {frames : List (Frame α)} {children : List (Outline α)}
  {level : Level α} {levels outer : List (Level α)}

/-- The innermost level can hold anything. -/
theorem refill (stands : Stands frames children levels) :
    ∃ level outer, levels = level :: outer ∧ level.children = children ∧
      ∀ children, Stands frames children ({ level with children } :: outer) := by
  cases stands with
  | root => exact ⟨_, _, rfl, rfl, .root⟩
  | inside _ around returns =>
    exact ⟨_, _, rfl, rfl, fun children => .inside children around returns⟩

/-- An open container can be closed, and is where it belongs then. -/
theorem close (stands : Stands (frame :: frames) children (level :: levels)) :
    ∃ parent outer closed, levels = parent :: outer ∧ level.close? parent = some closed ∧
      Stands frames (Cursor.restore children frame) (closed :: outer) := by
  cases stands with
  | inside _ around returns =>
    obtain ⟨parent, outer, rfl, holds, fits⟩ := around.refill
    refine ⟨parent, outer, _, rfl, ?_, fits _⟩
    simp only [Level.close?, Frame.key, holds, returns, Option.bind_eq_bind, Option.bind_some]
    rfl

/-- All open containers can be closed, which leaves the whole tree. -/
theorem closeAll (stands : Stands frames children (level :: outer)) :
    ∃ root, level.closeAll? outer = some root ∧
      root.children = Cursor.trees ⟨children, frames⟩ := by
  induction frames generalizing children level outer with
  | nil =>
    cases stands
    exact ⟨_, rfl, rfl⟩
  | cons frame frames ih =>
    obtain ⟨parent, outer, closed, rfl, closes, stands⟩ := stands.close
    obtain ⟨root, closes', whole⟩ := ih stands
    refine ⟨root, ?_, whole⟩
    rw [Level.closeAll?, closes]
    exact closes'

end Stands

namespace Stack

/-- A stack is at the place of a builder, and knows of the same wrong call. -/
structure Carries (stack : Stack α) (builder : Builder α) : Prop where
  stands : Stands builder.cursor.frames builder.cursor.children stack.levels
  fault : stack.fault? = builder.fault?

namespace Carries

variable {stack : Stack α} {builder : Builder α}

theorem fail (carries : stack.Carries builder) (fault : Fault) :
    (stack.fail fault).Carries (builder.fail fault) :=
  ⟨carries.stands, congrArg (·.or (some fault)) carries.fault⟩

theorem push (carries : stack.Carries builder) (value : α) :
    ∃ next, stack.push? (leaf value) = some next ∧ next.Carries (builder.add value) := by
  obtain ⟨levels, fault?⟩ := stack
  obtain ⟨stands, same⟩ := carries
  obtain ⟨level, outer, rfl, holds, fits⟩ := stands.refill
  refine ⟨_, rfl, ?_, same⟩
  rw [holds]
  exact fits (builder.cursor.children ++ [leaf value])

/-- A container that is there leaves a gap to which its index leads back; one that is not there
comes last. -/
theorem enter (carries : stack.Carries builder) (kind : ContainerKind) (text : String) :
    ∃ next, stack.enter? kind text = some next ∧ next.Carries (builder.enter kind text) := by
  rw [enter?, Builder.enter]
  cases named : Name.ofString text with
  | error error => exact ⟨_, rfl, carries.fail _⟩
  | ok name =>
    obtain ⟨levels, stackFault?⟩ := stack
    obtain ⟨⟨_, frames⟩, fault?⟩ := builder
    obtain ⟨stands, same⟩ := carries
    obtain ⟨⟨container?, index?, children⟩, outer, rfl, rfl, fits⟩ := stands.refill
    rcases cut?_cases kind name children with
      ⟨nowhere, missing⟩ | ⟨before, inner, after, found, rfl, missing⟩
    · simp only [findIdx?_absent missing, Cursor.enter, nowhere]
      let frame : Frame α := { kind, name, before := children, after := [] }
      have around : Stands frames (frame.before ++ frame.after)
          (⟨container?, index?, children⟩ :: outer) := by
        rw [List.append_nil]
        exact stands
      have returns (tree : Outline α) :
          putIn? none tree (frame.before ++ frame.after) = some (children ++ [tree]) := by
        rw [List.append_nil]
        rfl
      exact ⟨_, rfl, .inside [] around returns, same⟩
    · simp only [findIdx?_here missing, Cursor.enter, found, takeOut?_here]
      let frame : Frame α := { kind, name, before, after }
      have around : Stands frames (frame.before ++ frame.after)
          (⟨container?, index?, before ++ after⟩ :: outer) := fits (before ++ after)
      exact ⟨_, rfl, .inside inner around putIn?_here, same⟩

theorem leave (carries : stack.Carries builder) :
    ∃ next, stack.leave? = some next ∧ next.Carries builder.leave := by
  obtain ⟨levels, stackFault?⟩ := stack
  obtain ⟨⟨children, frames⟩, fault?⟩ := builder
  obtain ⟨stands, same⟩ := carries
  cases frames with
  | nil =>
    cases stands
    have top : Carries ⟨[.root children], stackFault?⟩ ⟨⟨children, []⟩, fault?⟩ :=
      ⟨.root children, same⟩
    exact ⟨_, rfl, top.fail .unmatchedEnd⟩
  | cons frame frames =>
    obtain ⟨level, outer, rfl, -, -⟩ := stands.refill
    obtain ⟨parent, outer, closed, rfl, closes, around⟩ := stands.close
    refine ⟨⟨closed :: outer, stackFault?⟩, ?_, around, same⟩
    simp only [leave?, closes, Option.bind_eq_bind, Option.bind_some]

/-- Every call can be made, and stack and builder go to the same place. -/
theorem call (carries : stack.Carries builder) (made : Call α) :
    ∃ next, stack.call? made = some next ∧ next.Carries (builder.call made) :=
  match made with
  | .leaf (.ok value) => carries.push value
  | .leaf (.error fault) => ⟨_, rfl, carries.fail fault⟩
  | .enter kind text => carries.enter kind text
  | .leave => carries.leave

theorem calls (carries : stack.Carries builder) (made : List (Call α)) :
    ∃ next, made.foldlM call? stack = some next ∧ next.Carries (builder.calls made) := by
  induction made generalizing stack builder with
  | nil => exact ⟨stack, rfl, carries⟩
  | cons first rest ih =>
    obtain ⟨middle, here, carries⟩ := carries.call first
    obtain ⟨next, later, carries⟩ := ih carries
    refine ⟨next, ?_, carries⟩
    rw [List.foldlM_cons, here]
    exact later

theorem finish (carries : stack.Carries builder) : stack.finish? = some builder.finish := by
  obtain ⟨levels, fault?⟩ := stack
  obtain ⟨stands, rfl⟩ := carries
  rw [finish?, Builder.finish]
  cases builder.fault? with
  | some fault => rfl
  | none =>
    obtain ⟨level, outer, rfl, -, -⟩ := stands.refill
    obtain ⟨root, closes, whole⟩ := stands.closeAll
    simp only [closes, whole, Option.bind_eq_bind, Option.bind_some]

end Carries

/-- Nothing stops a stack, and what is built on it is what a builder builds. -/
theorem build?_eq (made : List (Call α)) :
    build? made = some (Builder.start.calls made).finish := by
  have empty : (start : Stack α).Carries Builder.start := ⟨.root [], rfl⟩
  obtain ⟨stack, called, carries⟩ := empty.calls made
  rw [build?, called]
  exact carries.finish

end Stack

end Depot.Outline

import Depot.Name

set_option autoImplicit false

namespace Depot

/-- What groups entries under a name. -/
inductive ContainerKind where
  | directory
  | archive
deriving Repr, DecidableEq

/-- A tree of containers with leaves of some type. -/
inductive Outline (α : Type) where
  | leaf (value : α)
  | container (kind : ContainerKind) (name : Name) (children : List (Outline α))

namespace Outline

variable {α : Type}

/-- What is wrong with a call on a builder. -/
inductive Fault where
  | invalidName (text : String) (error : NameError)
  | unmatchedEnd
deriving DecidableEq

def Fault.code : Fault → String
  | invalidName .. | unmatchedEnd => "InvalidPlan"

def Fault.message : Fault → String
  | invalidName text error =>
    "invalid plan: invalid name " ++ Text.quoted text ++ ": " ++ error.message
  | unmatchedEnd => "invalid plan: end() without matching dir() or archive()"

def isContainer (kind : ContainerKind) (name : Name) : Outline α → Bool
  | leaf _ => false
  | container kind' name' _ => kind' = kind && name' = name

/-- A list cut at the first container of the given kind and name: the trees before it, its children,
and the trees after it. -/
def cut? (kind : ContainerKind) (name : Name) :
    List (Outline α) → Option (List (Outline α) × List (Outline α) × List (Outline α))
  | [] => none
  | tree :: rest =>
    match tree with
    | container kind' name' children =>
      if kind' = kind ∧ name' = name then some ([], children, rest)
      else (cut? kind name rest).map fun (before, inner, after) => (tree :: before, inner, after)
    | leaf _ =>
      (cut? kind name rest).map fun (before, inner, after) => (tree :: before, inner, after)

/-- An open container with its siblings. -/
structure Frame (α : Type) where
  kind : ContainerKind
  name : Name
  before : List (Outline α)
  after : List (Outline α)

/-- A place in a tree: what the container that is open holds so far, and the containers around it,
the innermost first. -/
structure Cursor (α : Type) where
  children : List (Outline α)
  frames : List (Frame α)

namespace Cursor

def start : Cursor α := ⟨[], []⟩

/-- Adds a tree at the end of the open container. -/
def push (cursor : Cursor α) (tree : Outline α) : Cursor α :=
  { cursor with children := cursor.children ++ [tree] }

/-- Goes into the container of the given kind and name, which is added if it is not there. -/
def enter (cursor : Cursor α) (kind : ContainerKind) (name : Name) : Cursor α :=
  match cut? kind name cursor.children with
  | some (before, inner, after) => ⟨inner, { kind, name, before, after } :: cursor.frames⟩
  | none => ⟨[], { kind, name, before := cursor.children, after := [] } :: cursor.frames⟩

/-- What holds the open container, once it is put back between its siblings. -/
def restore (children : List (Outline α)) (frame : Frame α) : List (Outline α) :=
  frame.before ++ container frame.kind frame.name children :: frame.after

/-- Goes back to the container around the open one. -/
def leave? (cursor : Cursor α) : Option (Cursor α) :=
  match cursor.frames with
  | [] => none
  | frame :: frames => some ⟨restore cursor.children frame, frames⟩

def trees (cursor : Cursor α) : List (Outline α) :=
  cursor.frames.foldl restore cursor.children

end Cursor

/-- A builder remembers the first call that was wrong; such a call changes nothing. -/
structure Builder (α : Type) where
  cursor : Cursor α
  fault? : Option Fault

namespace Builder

def start : Builder α := ⟨.start, none⟩

def fail (builder : Builder α) (fault : Fault) : Builder α :=
  { builder with fault? := builder.fault?.or (some fault) }

def add (builder : Builder α) (value : α) : Builder α :=
  { builder with cursor := builder.cursor.push (leaf value) }

/-- Goes into the container of the given kind and name. -/
def enter (builder : Builder α) (kind : ContainerKind) (text : String) : Builder α :=
  match Name.ofString text with
  | .ok name => { builder with cursor := builder.cursor.enter kind name }
  | .error error => builder.fail (.invalidName text error)

/-- Goes back to the container around the open one. -/
def leave (builder : Builder α) : Builder α :=
  match builder.cursor.leave? with
  | some cursor => { builder with cursor }
  | none => builder.fail .unmatchedEnd

/-- The tree, unless a call was wrong. -/
def finish (builder : Builder α) : Except Fault (List (Outline α)) :=
  match builder.fault? with
  | some fault => .error fault
  | none => .ok builder.cursor.trees

end Builder

end Outline

end Depot

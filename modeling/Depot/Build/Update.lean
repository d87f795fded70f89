import Depot.Archive.Compression
import Depot.Build.Resolution
import Depot.Entry

set_option autoImplicit false

/-
Building the output of one artifact from its slots, all of it or only what has to be built again.
The output from before is looked up by name, container by container.
-/

namespace Depot

/-- Which parts of an output are built again. -/
inductive Scope where
  | everything
  /-- All but the files whose sources have the stamps with which they were read. -/
  | stale
  /-- What depends on one source. -/
  | changed (source : Source)
deriving DecidableEq

/-- Whether only what depends on one source is built again. -/
def Scope.isChange : Scope → Bool
  | changed _ => true
  | everything | stale => false

/-- What was done to build an output. -/
structure Effort where
  read : Nat
  reused : Nat
  encoded : Nat
deriving Repr, DecidableEq

namespace Effort

def none : Effort := ⟨0, 0, 0⟩

instance : Inhabited Effort := ⟨none⟩

instance : Add Effort where
  add left right :=
    ⟨left.read + right.read, left.reused + right.reused, left.encoded + right.encoded⟩

theorem add_eq (left right : Effort) : left + right =
    ⟨left.read + right.read, left.reused + right.reused, left.encoded + right.encoded⟩ :=
  rfl

end Effort

/-- What the output of an artifact is built with. -/
structure Assembler where
  workspace : Workspace
  registry : Registry
  hash : Hash
  codec : Archive.Compression.Codec
  compression : Archive.Compression
  artifact : String

namespace Assembler

variable (assembler : Assembler)

/-- Whether a slot with the given dependencies is built again. -/
def reached (scope : Scope) (touches : List Touch) : Except BuildFault Bool :=
  match scope with
  | .everything | .stale => .ok true
  | .changed source => assembler.workspace.reaches source touches

/-- What is kept in mind of an entry from before; a build of everything starts from nothing. -/
def remembered (scope : Scope) (previous? : Option Entry) : Option Entry :=
  match scope with
  | .everything => none
  | _ => previous?

/-- The entry from before, if it still shows what its source holds. -/
def current? (scope : Scope) (source : Source) (previous? : Option Entry) : Option Entry :=
  match scope, previous? with
  | .stale, some (.file name content stamp digest) =>
    if assembler.workspace.isLive source ∧ stamp = assembler.workspace.stamp source then
      some (.file name content stamp digest)
    else none
  | _, _ => none

def file (scope : Scope) (name : Name) (source : Source) (previous? : Option Entry) :
    Except BuildFault (Entry × Effort) :=
  match assembler.current? scope source previous? with
  | some entry => .ok (entry, { read := 0, reused := 1, encoded := 0 })
  | none =>
    match assembler.workspace.read source with
    | .ok content =>
      .ok (.ofFile assembler.hash name content (assembler.workspace.stamp source),
        { read := 1, reused := 0, encoded := 0 })
    | .error fault => .error (.unreadable (assembler.workspace.path source) (.refused fault))

/-- The archive with the given members. Bytes that were made from members with the same digest are
used again. -/
def archive (path : Path) (name : Name) (previous : Option (List Entry × Bytes))
    (members : List Entry) : Except BuildFault (Entry × Effort) :=
  let hash := assembler.hash
  let kept? := previous.bind fun (members', bytes) =>
    if Entry.listDigest hash members = Entry.listDigest hash members' then some bytes else none
  match kept? with
  | some bytes => .ok (.ofArchive hash name members bytes, .none)
  | none =>
    match Archive.encodeWith assembler.codec assembler.compression (Entry.toMembers members) with
    | .ok bytes =>
      .ok (.ofArchive hash name members bytes, { read := 0, reused := 0, encoded := 1 })
    | .error fault => .error (.archive assembler.artifact path fault)

def directoryBefore : Option Entry → Option (List Entry)
  | some (.directory _ children _) => some children
  | _ => none

def archiveBefore : Option Entry → Option (List Entry × Bytes)
  | some (.archive _ members bytes _) => some (members, bytes)
  | _ => none

mutual

def entry (scope : Scope) (path : Path) (previous? : Option Entry) :
    Slot → Except BuildFault (Entry × Effort)
  | .file name source => assembler.file scope name source (remembered scope previous?)
  | .container .directory name _ contents => do
    let previous := directoryBefore (remembered scope previous?)
    let (children, effort) ← container scope (path.push name) previous contents
    return (.ofDirectory assembler.hash name children, effort)
  | .container .archive name _ contents => do
    let path := path.push name
    let previous := archiveBefore (remembered scope previous?)
    let (members, effort) ← container scope path (previous.map Prod.fst) contents
    let (archive, encoding) ← assembler.archive path name previous members
    return (archive, effort + encoding)

/-- The entries of the container at a path, given those from before if it was built before. -/
def container (scope : Scope) (path : Path) (previous : Option (List Entry)) :
    Except BuildFault (List Slot) → Except BuildFault (List Entry × Effort)
  | .error fault => .error fault
  | .ok slots => entries scope path previous slots

/-- The entries for some slots of the container at a path. A slot that is not reached keeps its
entry. If there is none, it is built all the same in a container that was built before, where it was
not called what it is called now, and is left out of others. -/
def entries (scope : Scope) (path : Path) (previous : Option (List Entry)) :
    List Slot → Except BuildFault (List Entry × Effort)
  | [] => .ok ([], .none)
  | slot :: rest => do
    let before? := previous.bind fun entries => Entry.named? entries slot.name
    let (first, effort) ←
      if ← assembler.reached scope slot.touches then
        let (first, effort) ← entry scope path before? slot
        pure ([first], effort)
      else
        match before?, previous with
        | some before, _ => pure ([before], .none)
        | none, some _ =>
          let (first, effort) ← entry .everything path none slot
          pure ([first], effort)
        | none, none => pure ([], .none)
    let (others, more) ← entries scope path previous rest
    return (first ++ others, effort + more)

end

def resolver : Resolver where
  workspace := assembler.workspace
  registry := assembler.registry
  artifact := assembler.artifact

/-- The output of a plan, given the output from before if there was one. -/
def output (scope : Scope) (plan : Plan) (previous : Option (List Entry)) :
    Except BuildFault (List Entry × Effort) :=
  assembler.container scope .root previous (assembler.resolver.slots plan)

end Assembler

end Depot

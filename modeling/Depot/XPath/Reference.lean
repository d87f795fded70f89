import Depot.XPath.Scope

set_option autoImplicit false

namespace Depot.XPath

/-- Where a reference is found. -/
inductive Context where
  /-- Nothing is declared. -/
  | bare
  /-- The declarations of some scopes. -/
  | scopes (chain : ScopeChain)
  /-- Elements of other kinds, by the names under which they may be referred to. -/
  | parameters (names : List String)
deriving Repr, DecidableEq

/-- What a reference may be asked about or be bound to. -/
inductive Element where
  | declaration (declared : Variable)
  | other (name : String)
deriving Repr, DecidableEq

def Element.name : Element → String
  | declaration declared => declared.name.display
  | other name => name

/-- An occurrence of a variable, `offset` bytes into an expression. -/
structure Reference where
  text : String
  name : PrefixedName
  offset : Nat
  context : Context
deriving Repr, DecidableEq

namespace Reference

def textFor (name : PrefixedName) : String :=
  "$" ++ name.display

/-- Reads a reference: a dollar sign and a name. -/
def ofText (text : String) (offset : Nat) (context : Context) : Except Fault Reference :=
  match text.toList with
  | '$' :: rest => do
    let name ← PrefixedName.ofText (String.ofList rest)
    return { text, name, offset, context }
  | _ => throw (.notAReference text)

variable (reference : Reference)

def written : String :=
  String.ofList (reference.text.toList.drop 1)

/-- The expanded form of the name, if the context can tell it. -/
def expanded? : Option ExpandedName :=
  match reference.context with
  | .bare =>
    match reference.name.prefixPart with
    | none => some (.ofLocal reference.name.localPart)
    | some _ => none
  | .scopes chain => (chain.expand reference.name).toOption
  | .parameters _ => none

def resolve? : Option Variable :=
  match reference.context with
  | .scopes chain => (chain.expand reference.name).toOption.bind chain.lookUp?
  | .bare | .parameters _ => none

def type : ValueType :=
  (reference.resolve?.map Variable.type).getD .unknown

/-- The bytes of the expression that the reference takes, from the first to behind the last. -/
def range : Nat × Nat :=
  (reference.offset, reference.offset + reference.text.utf8ByteSize)

def nameOffset : Nat :=
  reference.offset + 1

def nameRange : Nat × Nat :=
  (1, reference.text.utf8ByteSize)

/-- Gives the reference another local part. Its prefix stays, and a prefix of the new name does not
matter. -/
def rename (text : String) : Except Fault Reference := do
  let name ← PrefixedName.ofText text
  let name := { reference.name with localPart := name.localPart }
  return { reference with text := textFor name, name }

def bindTo (element : Element) : Except Fault Reference :=
  reference.rename element.name

def refersTo : Element → Bool
  | .declaration declared =>
    reference.written = declared.name.display &&
      reference.resolve?.any fun resolved => resolved.number = declared.number
  | .other name =>
    match reference.context with
    | .parameters names => names.contains name && name = reference.written
    | .bare | .scopes _ => false

/-- Whether the reference equals another one, seen from the first. If it resolves, the other one
must resolve to the same declaration; else their names must be equal, expanded if it can be. -/
def equals (other : Reference) : Bool :=
  match reference.resolve? with
  | some declared => other.resolve?.any fun resolved => resolved.number = declared.number
  | none =>
    match reference.expanded? with
    | some name => other.expanded? = some name
    | none => reference.written = other.written

/-- What the hash of a reference is made from. -/
inductive Key where
  | expanded (name : ExpandedName)
  | written (text : String)
deriving Repr, DecidableEq

def key : Key :=
  match reference.expanded? with
  | some name => .expanded name
  | none => .written reference.written

def spelled : String :=
  "VariableReference \x7b text: " ++ Text.quoted reference.text ++ ", offset: "
    ++ toString reference.offset ++ " \x7d"

end Reference

end Depot.XPath

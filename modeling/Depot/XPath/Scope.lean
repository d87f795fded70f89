import Depot.XPath.Name

set_option autoImplicit false

namespace Depot.XPath

/-- What is known of the values that a variable may have. -/
inductive ValueType where
  | unknown
  | any
  | boolean
  | number
  | string
  | nodeSet
deriving Repr, DecidableEq

def ValueType.display : ValueType → String
  | unknown => "unknown"
  | any => "any"
  | boolean => "boolean"
  | number => "number"
  | string => "string"
  | nodeSet => "node-set"

/-- A declared variable. -/
structure Variable where
  number : Nat
  name : PrefixedName
  expanded : ExpandedName
  type : ValueType
deriving Repr, DecidableEq

/-- The bindings and declarations of one scope. -/
structure Scope where
  namespaces : List (String × String)
  declared : List Variable
deriving Repr, DecidableEq

def Scope.variable? (scope : Scope) (name : ExpandedName) : Option Variable :=
  scope.declared.find? fun candidate => candidate.expanded = name

/-- A scope and those around it, the innermost first. -/
structure ScopeChain where
  innermost : Scope
  outer : List Scope
deriving Repr, DecidableEq

namespace ScopeChain

def start : ScopeChain := ⟨⟨[], []⟩, []⟩

def nested (chain : ScopeChain) : ScopeChain := ⟨⟨[], []⟩, chain.innermost :: chain.outer⟩

def scopes (chain : ScopeChain) : List Scope := chain.innermost :: chain.outer

/-- Binds a prefix to a namespace, whatever it was bound to in this scope. -/
def bind (chain : ScopeChain) (prefixPart uri : String) : ScopeChain :=
  { chain with innermost :=
    { chain.innermost with namespaces := (prefixPart, uri) :: chain.innermost.namespaces } }

def namespace? (chain : ScopeChain) (prefixPart : String) : Option String :=
  chain.scopes.findSome? fun scope => scope.namespaces.lookup prefixPart

def expand (chain : ScopeChain) (name : PrefixedName) : Except Fault ExpandedName :=
  match name.prefixPart with
  | none => .ok (.ofLocal name.localPart)
  | some prefixPart =>
    match chain.namespace? prefixPart with
    | some uri => .ok ⟨uri, name.localPart⟩
    | none => .error (.unboundPrefix prefixPart)

/-- The variable of a name. Inner declarations hide outer ones. -/
def lookUp? (chain : ScopeChain) (name : ExpandedName) : Option Variable :=
  chain.scopes.findSome? fun scope => scope.variable? name

/-- Declares a variable with the given number in the innermost scope. -/
def declare (chain : ScopeChain) (number : Nat) (text : String) (type : ValueType) :
    Except Fault (Variable × ScopeChain) := do
  let name ← PrefixedName.ofText text
  let expanded ← chain.expand name
  match chain.innermost.variable? expanded with
  | some _ => throw (.alreadyDeclared name.display)
  | none =>
    let declared : Variable := { number, name, expanded, type }
    let innermost :=
      { chain.innermost with declared := declared :: chain.innermost.declared }
    return (declared, { chain with innermost })

end ScopeChain

end Depot.XPath

import Depot.Proofs.Outcome
import Depot.Proofs.XPath.Name
import Depot.XPath.Scope

set_option autoImplicit false

namespace Depot.XPath

namespace ScopeChain

variable {chain chain' : ScopeChain} {declared other : Variable}

/-- The namespace that is meant where a prefix is written, or none. -/
def uri? (chain : ScopeChain) : Option String → Option String
  | none => some ""
  | some prefixPart => chain.namespace? prefixPart

theorem expand_eq_ok {name : PrefixedName} {expanded : ExpandedName} :
    chain.expand name = .ok expanded ↔
      chain.uri? name.prefixPart = some expanded.uri ∧ name.localPart = expanded.localPart := by
  rcases name with ⟨_ | prefixPart, localPart⟩ <;> rcases expanded with ⟨uri, localPart'⟩
  · simp [expand, uri?, ExpandedName.ofLocal]
  · cases bound : chain.namespace? prefixPart <;> simp [expand, uri?, bound]

/-- Whether a variable is declared in one of the scopes, be it hidden or not. -/
def Declares (chain : ScopeChain) (declared : Variable) : Prop :=
  ∃ scope ∈ chain.scopes, declared ∈ scope.declared

@[simp] theorem not_declares_start : ¬ start.Declares declared := by
  simp [Declares, start, scopes]

@[simp] theorem declares_nested : chain.nested.Declares declared ↔ chain.Declares declared := by
  simp [Declares, nested, scopes]

@[simp] theorem declares_bind (prefixPart uri : String) :
    (chain.bind prefixPart uri).Declares declared ↔ chain.Declares declared := by
  simp [Declares, bind, scopes]

/-- What a declaration takes, and what becomes of the scopes. -/
theorem declare_eq_ok {number : Nat} {text : String} {type : ValueType}
    (succeeded : chain.declare number text type = .ok (declared, chain')) :
    declared.number = number ∧ declared.type = type ∧
    PrefixedName.ofText text = .ok declared.name ∧ chain.expand declared.name =
      .ok declared.expanded ∧
    chain.innermost.variable? declared.expanded = none ∧
    chain' = { chain with innermost :=
      { chain.innermost with declared := declared :: chain.innermost.declared } } := by
  obtain ⟨name, read, succeeded⟩ := bind_ok_iff.mp succeeded
  obtain ⟨expanded, meant, succeeded⟩ := bind_ok_iff.mp succeeded
  cases vacant : chain.innermost.variable? expanded with
  | some taken =>
    rw [vacant] at succeeded
    cases succeeded
  | none =>
    rw [vacant] at succeeded
    cases succeeded
    exact ⟨rfl, rfl, read, meant, vacant, rfl⟩

/-- What is found under a name is declared, and is meant by the name. -/
theorem lookUp?_eq_some {name : ExpandedName} (found : chain.lookUp? name = some declared) :
    chain.Declares declared ∧ declared.expanded = name := by
  obtain ⟨scope, among, here⟩ := List.exists_of_findSome?_eq_some found
  exact ⟨⟨scope, among, List.mem_of_find?_eq_some here⟩, by simpa using List.find?_some here⟩

theorem declares_declare {number : Nat} {text : String} {type : ValueType}
    (succeeded : chain.declare number text type = .ok (declared, chain')) :
    chain'.Declares other ↔ other = declared ∨ chain.Declares other := by
  obtain ⟨-, -, -, -, -, rfl⟩ := declare_eq_ok succeeded
  simp [Declares, scopes, or_assoc]

end ScopeChain

/-- What is done to scopes, which are numbered as they are made. -/
inductive Scoping where
  | outermost
  | nested (scope : Nat)
  | bind (scope : Nat) (prefixPart uri : String)
  | declare (scope : Nat) (text : String) (type : ValueType)
deriving Repr, DecidableEq

/-- Scopes in use, each with those around it as they were when it was made, and the number of the
variable that is declared next. -/
structure Scopes where
  chains : List ScopeChain
  next : Nat
deriving Repr, DecidableEq

namespace Scopes

def start : Scopes := ⟨[], 0⟩

/-- The scopes after something was done to them, unless it fails. -/
def change? (scopes : Scopes) : Scoping → Option Scopes
  | .outermost => some { scopes with chains := scopes.chains ++ [.start] }
  | .nested scope => do
    let chain ← scopes.chains[scope]?
    return { scopes with chains := scopes.chains ++ [chain.nested] }
  | .bind scope prefixPart uri => do
    let chain ← scopes.chains[scope]?
    return { scopes with chains := scopes.chains.set scope (chain.bind prefixPart uri) }
  | .declare scope text type => do
    let chain ← scopes.chains[scope]?
    let (_, chain) ← (chain.declare scopes.next text type).toOption
    return ⟨scopes.chains.set scope chain, scopes.next + 1⟩

/-- The scopes after something was done to them. What fails changes nothing. -/
def step (scopes : Scopes) (scoping : Scoping) : Scopes :=
  (scopes.change? scoping).getD scopes

def run (history : List Scoping) : Scopes :=
  history.foldl step start

def Declares (scopes : Scopes) (declared : Variable) : Prop :=
  ∃ chain ∈ scopes.chains, chain.Declares declared

theorem declares_append {scopes : Scopes} {chain : ScopeChain} {declared : Variable}
    (here : Declares { scopes with chains := scopes.chains ++ [chain] } declared) :
    scopes.Declares declared ∨ chain.Declares declared := by
  obtain ⟨other, among, here⟩ := here
  obtain among | rfl := (List.mem_append.mp among).imp_right List.mem_singleton.mp
  · exact .inl ⟨other, among, here⟩
  · exact .inr here

theorem declares_set {scopes : Scopes} {chain : ScopeChain} {scope next : Nat} {declared : Variable}
    (here : Declares ⟨scopes.chains.set scope chain, next⟩ declared) :
    scopes.Declares declared ∨ chain.Declares declared := by
  obtain ⟨other, among, here⟩ := here
  obtain among | rfl := List.mem_or_eq_of_mem_set among
  · exact .inl ⟨other, among, here⟩
  · exact .inr here

/-- What is declared by what is done: nothing, or a variable of the next number. -/
theorem change?_declares {scopes scopes' : Scopes} {scoping : Scoping}
    (changed : scopes.change? scoping = some scopes') :
    (scopes'.next = scopes.next ∧ ∀ declared, scopes'.Declares declared →
      scopes.Declares declared) ∨
    ∃ added, added.number = scopes.next ∧ added.name.Proper ∧ scopes'.next = scopes.next + 1 ∧
      ∀ declared, scopes'.Declares declared → declared = added ∨ scopes.Declares declared := by
  cases scoping with
  | outermost =>
    obtain rfl := Option.some.inj changed
    refine .inl ⟨rfl, fun declared here => ?_⟩
    exact (declares_append here).resolve_right ScopeChain.not_declares_start
  | nested scope =>
    obtain ⟨around, found, ⟨⟩⟩ := Option.bind_eq_some_iff.mp changed
    refine .inl ⟨rfl, fun declared here => (declares_append here).elim id fun inner => ?_⟩
    exact ⟨around, List.mem_of_getElem? found, ScopeChain.declares_nested.mp inner⟩
  | bind scope prefixPart uri =>
    obtain ⟨around, found, ⟨⟩⟩ := Option.bind_eq_some_iff.mp changed
    refine .inl ⟨rfl, fun declared here => (declares_set here).elim id fun inner => ?_⟩
    exact ⟨around, List.mem_of_getElem? found, (ScopeChain.declares_bind _ _).mp inner⟩
  | declare scope text type =>
    obtain ⟨around, found, changed⟩ := Option.bind_eq_some_iff.mp changed
    obtain ⟨⟨added, around'⟩, succeeded, ⟨⟩⟩ := Option.bind_eq_some_iff.mp changed
    have succeeded := toOption_eq_some_iff.mp succeeded
    obtain ⟨number, -, read, -⟩ := ScopeChain.declare_eq_ok succeeded
    refine .inr ⟨added, number, (PrefixedName.ofText_eq_ok.mp read).1, rfl, fun declared here => ?_⟩
    rcases declares_set here with before | inner
    · exact .inr before
    · exact ((ScopeChain.declares_declare succeeded).mp inner).imp_right fun before =>
        ⟨around, List.mem_of_getElem? found, before⟩

/-- The variables are told apart by their numbers, and are declared with proper names. -/
structure Numbered (scopes : Scopes) : Prop where
  below : ∀ {declared}, scopes.Declares declared → declared.number < scopes.next
  single : ∀ {left right}, scopes.Declares left → scopes.Declares right →
    left.number = right.number → left = right
  proper : ∀ {declared}, scopes.Declares declared → declared.name.Proper

theorem step_numbered {scopes : Scopes} (numbered : scopes.Numbered) (scoping : Scoping) :
    (scopes.step scoping).Numbered := by
  cases changed : scopes.change? scoping with
  | none => rwa [step, changed]
  | some scopes' =>
    rw [step, changed, Option.getD_some]
    obtain ⟨next, old⟩ | ⟨added, number, proper, next, old⟩ := change?_declares changed
    · exact ⟨fun here => next ▸ numbered.below (old _ here),
        fun left right => numbered.single (old _ left) (old _ right),
        fun here => numbered.proper (old _ here)⟩
    · refine ⟨fun here => ?_, fun left right same => ?_, fun here => ?_⟩
      · obtain rfl | before := old _ here
        · omega
        · have := numbered.below before
          omega
      -- The number of the added variable is above those of all others.
      · obtain rfl | left := old _ left <;> obtain rfl | right := old _ right
        · rfl
        · have := numbered.below right
          omega
        · have := numbered.below left
          omega
        · exact numbered.single left right same
      · obtain rfl | before := old _ here
        · exact proper
        · exact numbered.proper before

/-- By induction on what was done. -/
theorem run_numbered (history : List Scoping) : (run history).Numbered := by
  have induct : ∀ scopes : Scopes, scopes.Numbered → (history.foldl step scopes).Numbered := by
    induction history with
    | nil => exact fun scopes numbered => numbered
    | cons scoping rest ih => exact fun scopes numbered => ih _ (step_numbered numbered scoping)
  refine induct start ⟨?_, ?_, ?_⟩ <;> simp [start, Declares]

end Scopes

end Depot.XPath

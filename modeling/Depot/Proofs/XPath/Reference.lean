import Depot.Proofs.XPath.Scope
import Depot.XPath.Reference

set_option autoImplicit false

namespace Depot.XPath

namespace Context

def expand? : Context → PrefixedName → Option ExpandedName
  | bare, name => if name.prefixPart = none then some (.ofLocal name.localPart) else none
  | scopes chain, name => (chain.expand name).toOption
  | parameters _, _ => none

def lookUp? : Context → ExpandedName → Option Variable
  | scopes chain, name => chain.lookUp? name
  | bare, _ | parameters _, _ => none

/-- Whether a context can come to be. Scopes can in all ways of binding prefixes, of declaring
variables and of making scopes inside of others. -/
def Arises : Context → Prop
  | scopes chain => ∃ history, chain ∈ (Scopes.run history).chains
  | bare | parameters _ => True

/-- A number is found under one name, and belongs to one variable. -/
theorem Arises.lookUp?_inj {context : Context} (arises : context.Arises) {left right : ExpandedName}
    {declared other : Variable} (found : context.lookUp? left = some declared)
    (again : context.lookUp? right = some other) (same : declared.number = other.number) :
    left = right ∧ declared = other := by
  cases context with
  | bare => cases found
  | parameters names => cases found
  | scopes chain =>
    obtain ⟨history, among⟩ := arises
    obtain ⟨here, rfl⟩ := ScopeChain.lookUp?_eq_some found
    obtain ⟨there, rfl⟩ := ScopeChain.lookUp?_eq_some again
    have numbered := Scopes.run_numbered history
    obtain rfl := numbered.single ⟨chain, among, here⟩ ⟨chain, among, there⟩ same
    exact ⟨rfl, rfl⟩

end Context

namespace Reference

variable {context : Context} {reference changed left right : Reference}

/-- What is done to a reference after it was read. -/
inductive Change where
  | rename (text : String)
  | bindTo (element : Element)
deriving Repr, DecidableEq

def change (reference : Reference) : Change → Except Fault Reference
  | .rename text => reference.rename text
  | .bindTo element => reference.bindTo element

/-- The reference after a change. One that fails leaves it as it is. -/
def step (reference : Reference) (next : Change) : Reference :=
  ((reference.change next).toOption).getD reference

def run (reference : Reference) (changes : List Change) : Reference :=
  changes.foldl step reference

/-- Whether a reference is found in a context: it was read there, and may have been changed. -/
def Found (context : Context) (reference : Reference) : Prop :=
  ∃ text offset read changes, ofText text offset context = .ok read ∧ read.run changes = reference

/-- The text of a reference belongs to its name. -/
structure Spelled (reference : Reference) : Prop where
  text : reference.text = textFor reference.name
  proper : reference.name.Proper

theorem Spelled.written (spelled : reference.Spelled) :
    reference.written = reference.name.display := by
  rw [Reference.written, spelled.text, ← String.toList_inj]
  simp [textFor]

/-- Which references are read from a text. -/
theorem ofText_eq_ok {text : String} {offset : Nat} :
    ofText text offset context = .ok reference ↔
      reference.Spelled ∧ reference.text = text ∧ reference.offset = offset ∧
        reference.context = context := by
  constructor
  · intro read
    unfold ofText at read
    split at read
    · rename_i rest spelled
      obtain ⟨name, named, ⟨⟩⟩ := bind_ok_iff.mp read
      obtain ⟨proper, shown⟩ := PrefixedName.ofText_eq_ok.mp named
      refine ⟨⟨?_, proper⟩, rfl, rfl, rfl⟩
      rw [textFor, shown, ← String.toList_inj, spelled]
      simp
    · cases read
  · rintro ⟨⟨spelled, proper⟩, rfl, rfl, rfl⟩
    have chars : reference.text.toList = '$' :: reference.name.display.toList := by
      rw [spelled]
      simp [textFor]
    unfold ofText
    rw [chars]
    simp only [String.ofList_toList, proper.ofText_display]
    rfl

theorem rename_eq_ok {text : String} :
    reference.rename text = .ok changed ↔
      ∃ name, PrefixedName.ofText text = .ok name ∧
        { reference with
          text := textFor { reference.name with localPart := name.localPart }
          name := { reference.name with localPart := name.localPart } } = changed := by
  unfold rename
  rw [bind_ok_iff]
  simp [pure, Except.pure]

/-- All changes are renames. -/
theorem change_eq_rename (reference : Reference) (next : Change) :
    ∃ text, reference.change next = reference.rename text := by
  cases next with
  | rename text => exact ⟨text, rfl⟩
  | bindTo element => exact ⟨element.name, rfl⟩

theorem Spelled.rename {text : String} (spelled : reference.Spelled)
    (renamed : reference.rename text = .ok changed) :
    changed.Spelled ∧ changed.context = reference.context := by
  obtain ⟨name, read, rfl⟩ := rename_eq_ok.mp renamed
  exact ⟨⟨rfl, spelled.proper.withLocal (PrefixedName.ofText_eq_ok.mp read).1⟩, rfl⟩

theorem Spelled.step (spelled : reference.Spelled) (next : Change) :
    (reference.step next).Spelled ∧ (reference.step next).context = reference.context := by
  obtain ⟨text, renames⟩ := reference.change_eq_rename next
  rw [Reference.step, renames]
  cases renamed : reference.rename text with
  | error fault => exact ⟨spelled, rfl⟩
  | ok changed => exact spelled.rename renamed

/-- By induction on the changes. -/
theorem Spelled.run (spelled : reference.Spelled) (changes : List Change) :
    (reference.run changes).Spelled ∧ (reference.run changes).context = reference.context := by
  induction changes generalizing reference with
  | nil => exact ⟨spelled, rfl⟩
  | cons next rest ih =>
    obtain ⟨kept, context⟩ := spelled.step next
    exact ⟨(ih kept).1, (ih kept).2.trans context⟩

theorem Found.spelled (found : Found context reference) :
    reference.Spelled ∧ reference.context = context := by
  obtain ⟨text, offset, read, changes, reads, rfl⟩ := found
  obtain ⟨spelled, -, -, rfl⟩ := ofText_eq_ok.mp reads
  exact spelled.run changes

theorem Found.change {next : Change} (found : Found context reference)
    (succeeded : reference.change next = .ok changed) : Found context changed := by
  obtain ⟨text, offset, read, changes, reads, rfl⟩ := found
  refine ⟨text, offset, read, changes ++ [next], reads, ?_⟩
  have steps : read.run (changes ++ [next]) = (read.run changes).step next := List.foldl_append
  rw [steps, Reference.step, succeeded]
  rfl

theorem expanded?_eq (reference : Reference) :
    reference.expanded? = reference.context.expand? reference.name := by
  rcases reference with ⟨_, ⟨_ | _, _⟩, _, _ | _ | _⟩ <;> rfl

theorem resolve?_eq (reference : Reference) :
    reference.resolve? = reference.expanded?.bind reference.context.lookUp? := by
  rcases reference with ⟨_, ⟨_ | _, _⟩, _, _ | _ | _⟩ <;> rfl

theorem resolve?_eq_some {declared : Variable} (found : Found context reference) :
    reference.resolve? = some declared ↔
      ∃ name, reference.expanded? = some name ∧ context.lookUp? name = some declared := by
  rw [resolve?_eq, found.spelled.2]
  exact Option.bind_eq_some_iff

/-- References with the same text have the same name, and so it expands alike in one context. -/
theorem expanded?_of_written (leftFound : Found context left) (rightFound : Found context right)
    (same : left.written = right.written) : left.expanded? = right.expanded? := by
  obtain ⟨leftSpelled, leftContext⟩ := leftFound.spelled
  obtain ⟨rightSpelled, rightContext⟩ := rightFound.spelled
  rw [leftSpelled.written, rightSpelled.written] at same
  have names := (PrefixedName.display_inj leftSpelled.proper rightSpelled.proper).mp same
  rw [expanded?_eq, expanded?_eq, leftContext, rightContext, names]

/-- A reference that resolves equals those that resolve to the same variable. -/
theorem equals_resolved {declared : Variable} (arises : context.Arises)
    (leftFound : Found context left) (rightFound : Found context right)
    (resolved : left.resolve? = some declared) :
    left.equals right = true ↔ right.resolve? = some declared := by
  unfold equals
  rw [resolved]
  cases again : right.resolve? with
  | none => simp
  | some other =>
    obtain ⟨_, _, here⟩ := (resolve?_eq_some leftFound).mp resolved
    obtain ⟨_, _, there⟩ := (resolve?_eq_some rightFound).mp again
    constructor
    · intro same
      exact congrArg some (arises.lookUp?_inj there here (by simpa using same)).2
    · intro same
      simp [Option.some.inj same]

/-- What resolves to one variable are the references that expand alike. -/
theorem expanded?_of_resolved {declared : Variable} (arises : context.Arises)
    (leftFound : Found context left) (rightFound : Found context right)
    (resolved : left.resolve? = some declared) :
    right.resolve? = some declared ↔ left.expanded? = right.expanded? := by
  obtain ⟨name, expanded, known⟩ := (resolve?_eq_some leftFound).mp resolved
  rw [resolve?_eq_some rightFound, expanded]
  constructor
  · rintro ⟨other, expanded', known'⟩
    rw [expanded', (arises.lookUp?_inj known known' rfl).1]
  · intro same
    exact ⟨name, same.symm, known⟩

theorem key_eq_key (left right : Reference) :
    left.key = right.key ↔ left.expanded? = right.expanded? ∧
      (left.expanded? = none → left.written = right.written) := by
  unfold key
  cases left.expanded? <;> cases right.expanded? <;> simp

/-- References of one context are equal if their keys are. -/
theorem equals_iff_key (arises : context.Arises) (leftFound : Found context left)
    (rightFound : Found context right) : left.equals right = true ↔ left.key = right.key := by
  rw [key_eq_key]
  cases resolved : left.resolve? with
  | some declared =>
    obtain ⟨name, expanded, _⟩ := (resolve?_eq_some leftFound).mp resolved
    rw [equals_resolved arises leftFound rightFound resolved,
      expanded?_of_resolved arises leftFound rightFound resolved]
    simp [expanded]
  | none =>
    unfold equals
    rw [resolved]
    cases expanded : left.expanded? with
    | some name => simp [eq_comm]
    | none =>
      have names := expanded?_of_written leftFound rightFound
      rw [expanded] at names
      simpa using names

/-- References of one context are sound keys. Equality is an equivalence on them, those are equal
that have equal keys, and one that resolves equals just those that resolve to the same variable. -/
theorem equals_equivalence (arises : context.Arises) :
    Equivalence (fun left right : { reference // Found context reference } =>
      left.1.equals right.1 = true) ∧
    ∀ left right, Found context left → Found context right →
      (left.equals right = true ↔ left.key = right.key) ∧
      ∀ declared, left.resolve? = some declared →
        (left.equals right = true ↔ right.resolve? = some declared) := by
  refine ⟨⟨?_, ?_, ?_⟩, fun left right leftFound rightFound => ⟨?_, fun declared resolved => ?_⟩⟩
  · intro reference
    exact (equals_iff_key arises reference.2 reference.2).mpr rfl
  · intro left right same
    exact (equals_iff_key arises right.2 left.2).mpr
      ((equals_iff_key arises left.2 right.2).mp same).symm
  · intro left middle right first second
    exact (equals_iff_key arises left.2 right.2).mpr
      (((equals_iff_key arises left.2 middle.2).mp first).trans
        ((equals_iff_key arises middle.2 right.2).mp second))
  · exact equals_iff_key arises leftFound rightFound
  · exact equals_resolved arises leftFound rightFound resolved

end Reference

namespace Sample

/-- A variable that is hidden in the scope inside, where another prefix stands for its namespace
too. -/
def scoping : List Scoping :=
  [.outermost, .bind 0 "p" "urn:one", .declare 0 "p:x" .number, .nested 0, .bind 1 "q" "urn:one",
    .declare 1 "q:x" .string]

def inside : ScopeChain := (Scopes.run scoping).chains.getLast?.getD .start

end Sample

namespace Reference

open Sample in
theorem equals_equivalence_inside :
    ∃ left right, Found (.scopes inside) left ∧ Found (.scopes inside) right ∧ left.text = "$p:x" ∧
      right.text = "$q:x" ∧ left.equals right = true ∧ right.equals left = true ∧
      left.key = right.key := by
  have arises : (Context.scopes inside).Arises := ⟨scoping, by decide +kernel⟩
  let left : Reference := ⟨"$p:x", ⟨some "p", "x"⟩, 0, .scopes inside⟩
  let right : Reference := ⟨"$q:x", ⟨some "q", "x"⟩, 8, .scopes inside⟩
  have leftFound : Found (.scopes inside) left := ⟨"$p:x", 0, left, [], by decide +kernel, rfl⟩
  have rightFound : Found (.scopes inside) right := ⟨"$q:x", 8, right, [], by decide +kernel, rfl⟩
  obtain ⟨equivalence, keys⟩ := equals_equivalence arises
  have same : left.equals right = true := by decide +kernel
  exact ⟨left, right, leftFound, rightFound, rfl, rfl, same,
    @Equivalence.symm _ _ equivalence ⟨left, leftFound⟩ ⟨right, rightFound⟩ same,
    (keys left right leftFound rightFound).1.mp same⟩

end Reference

end Depot.XPath

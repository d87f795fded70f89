import Depot.Proofs.XPath.Reference

set_option autoImplicit false

namespace Depot.XPath

namespace Reference

variable {reference : Reference} {chain : ScopeChain} {declared : Variable}

/-- A reference that is bound to a variable keeps its prefix. -/
theorem bindTo_eq_ok (proper : declared.name.Proper) :
    reference.bindTo (.declaration declared) = .ok { reference with
      text := textFor { reference.name with localPart := declared.name.localPart }
      name := { reference.name with localPart := declared.name.localPart } } :=
  rename_eq_ok.mpr ⟨declared.name, proper.ofText_display, rfl⟩

/-- Whether a reference resolves to a variable that is visible under its expanded name. -/
theorem resolves_iff (found : Found (.scopes chain) reference)
    (visible : chain.lookUp? declared.expanded = some declared) :
    reference.resolve? = some declared ↔ chain.expand reference.name = .ok declared.expanded := by
  rw [resolve?_eq_some found, expanded?_eq, found.spelled.2]
  constructor
  · rintro ⟨name, expanded, known⟩
    rw [(ScopeChain.lookUp?_eq_some known).2]
    exact toOption_eq_some_iff.mp expanded
  · intro expanded
    exact ⟨declared.expanded, toOption_eq_some_iff.mpr expanded, visible⟩

/-- Whether a reference refers to a variable that is visible under its own name: if it is written as
the variable is. -/
theorem refersTo_iff (found : Found (.scopes chain) reference) (proper : declared.name.Proper)
    (visible : chain.lookUp? declared.expanded = some declared)
    (meant : chain.expand declared.name = .ok declared.expanded) :
    reference.refersTo (.declaration declared) = true ↔ reference.name = declared.name := by
  have spelled := found.spelled.1
  constructor
  · intro refers
    have written : reference.written = declared.name.display :=
      of_decide_eq_true (Bool.and_eq_true_iff.mp refers).1
    exact (PrefixedName.display_inj spelled.proper proper).mp (spelled.written.symm.trans written)
  · intro same
    have resolved := (resolves_iff found visible).mpr (same ▸ meant)
    simp [refersTo, spelled.written, same, resolved]

/-- A reference can be bound to each variable that is visible under its own name, but keeps its
prefix then. It resolves to the variable if its prefix stands for the namespace of the variable, and
refers to it if both have the same prefix. -/
theorem bindTo_refers (arises : (Context.scopes chain).Arises)
    (found : Found (.scopes chain) reference)
    (visible : chain.lookUp? declared.expanded = some declared)
    (meant : chain.expand declared.name = .ok declared.expanded) :
    ∃ bound, reference.bindTo (.declaration declared) = .ok bound ∧
      (bound.resolve? = some declared ↔
        chain.uri? reference.name.prefixPart = some declared.expanded.uri) ∧
      (bound.refersTo (.declaration declared) = true ↔
        reference.name.prefixPart = declared.name.prefixPart) := by
  obtain ⟨history, among⟩ := arises
  have proper : declared.name.Proper := (Scopes.run_numbered history).proper
    ⟨chain, among, (ScopeChain.lookUp?_eq_some visible).1⟩
  have binds := @bindTo_eq_ok reference _ proper
  have boundFound := @Found.change _ _ _ (.bindTo (.declaration declared)) found binds
  refine ⟨_, binds, ?_, ?_⟩
  · rw [resolves_iff boundFound visible, ScopeChain.expand_eq_ok]
    exact and_iff_left (ScopeChain.expand_eq_ok.mp meant).2
  · rw [refersTo_iff boundFound proper visible meant, PrefixedName.mk.injEq]
    exact and_iff_left rfl

end Reference

namespace Sample

/-- Two variables with one local part, one of which is in a namespace. -/
def twofold : List Scoping :=
  [.outermost, .bind 0 "p" "urn:p", .declare 0 "y" .number, .declare 0 "p:y" .string]

def outside : ScopeChain := (Scopes.run twofold).chains.getLast?.getD .start

def plain : Variable := ⟨0, ⟨none, "y"⟩, .ofLocal "y", .number⟩

def prefixed : Variable := ⟨1, ⟨some "p", "y"⟩, ⟨"urn:p", "y"⟩, .string⟩

def mention : Reference := ⟨"$p:x", ⟨some "p", "x"⟩, 0, .scopes outside⟩

theorem outside_arises : (Context.scopes outside).Arises :=
  ⟨twofold, by decide +kernel⟩

theorem mention_found : Reference.Found (.scopes outside) mention :=
  ⟨"$p:x", 0, mention, [], by decide +kernel, rfl⟩

end Sample

namespace Reference

open Sample

theorem bindTo_refers_prefixed :
    ∃ bound, mention.bindTo (.declaration prefixed) = .ok bound ∧
      bound.resolve? = some prefixed ∧ bound.refersTo (.declaration prefixed) = true := by
  obtain ⟨bound, binds, resolves, refers⟩ :=
    @bindTo_refers _ _ prefixed outside_arises mention_found (by decide +kernel) (by decide +kernel)
  exact ⟨bound, binds, resolves.mpr (by decide +kernel), refers.mpr rfl⟩

/-- A reference with a prefix is bound to a visible variable without one, and resolves to another
variable after that. -/
theorem not_refersTo_plain :
    (Context.scopes outside).Arises ∧ Found (.scopes outside) mention ∧
    outside.lookUp? plain.expanded = some plain ∧ outside.expand plain.name = .ok plain.expanded ∧
    ∃ bound, mention.bindTo (.declaration plain) = .ok bound ∧ bound.resolve? = some prefixed ∧
      bound.refersTo (.declaration plain) = false := by
  refine ⟨outside_arises, mention_found, by decide +kernel, by decide +kernel,
    { mention with text := "$p:y", name := ⟨some "p", "y"⟩ }, ?_, ?_, ?_⟩
  · decide +kernel
  · decide +kernel
  · decide +kernel

end Reference

end Depot.XPath

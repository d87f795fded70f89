import Depot.Proofs.XPath.Binding

set_option autoImplicit false

namespace Depot.XPath

/-- Changes to a reference in place. What was changed before a fault stays changed. -/
abbrev Rewrite := EStateM Fault Reference

namespace Reference

variable {context : Context} {reference : Reference}

/-- Gives the reference another local part: first to its text, then to its name. -/
def renameInPlace (text : String) : Rewrite Unit := do
  match PrefixedName.ofText text with
  | .error fault => throw fault
  | .ok other =>
    let name := { (← get).name with localPart := other.localPart }
    modify fun reference => { reference with text := textFor name }
    modify fun reference => { reference with name }

/-- Makes a change in place. -/
def carryOut : Change → Rewrite Unit
  | .rename text => renameInPlace text
  | .bindTo element => renameInPlace element.name

/-- The reference after a change in place, which may have failed. -/
def advance (reference : Reference) (next : Change) : Reference :=
  match carryOut next reference with
  | .ok () after => after
  | .error _ after => after

/-- A change in place is made as a whole, or it fails and nothing is changed. -/
theorem carryOut_eq (reference : Reference) (next : Change) :
    carryOut next reference =
      match reference.change next with
      | .ok changed => .ok () changed
      | .error fault => .error fault reference := by
  have renames : ∀ text, renameInPlace text reference =
      match reference.rename text with
      | .ok changed => .ok () changed
      | .error fault => .error fault reference := by
    intro text
    unfold renameInPlace rename
    cases PrefixedName.ofText text with
    | error fault => rfl
    | ok other => rfl
  cases next with
  | rename text => exact renames text
  | bindTo element => exact renames element.name

theorem advance_eq (reference : Reference) (next : Change) :
    reference.advance next = reference.step next := by
  rw [advance, step, carryOut_eq]
  cases reference.change next <;> rfl

/-- Changes that are made in place lead where they lead as a whole. -/
theorem run_in_place (reference : Reference) (changes : List Change) :
    changes.foldl advance reference = reference.run changes := by
  induction changes generalizing reference with
  | nil => rfl
  | cons next rest ih => rw [List.foldl_cons, ih, advance_eq, run, run, List.foldl_cons]

/-- No change moves a reference, or gives it another prefix or takes it away. -/
theorem step_keeps (reference : Reference) (next : Change) :
    (reference.step next).name.prefixPart = reference.name.prefixPart ∧
      (reference.step next).offset = reference.offset := by
  obtain ⟨text, renames⟩ := reference.change_eq_rename next
  rw [step, renames]
  cases renamed : reference.rename text with
  | error fault => exact ⟨rfl, rfl⟩
  | ok changed =>
    obtain ⟨name, _, rfl⟩ := rename_eq_ok.mp renamed
    exact ⟨rfl, rfl⟩

/-- By induction on the changes. -/
theorem run_keeps (reference : Reference) (changes : List Change) :
    (reference.run changes).name.prefixPart = reference.name.prefixPart ∧
      (reference.run changes).offset = reference.offset := by
  induction changes generalizing reference with
  | nil => exact ⟨rfl, rfl⟩
  | cons next rest ih =>
    obtain ⟨part, offset⟩ := reference.step_keeps next
    obtain ⟨later, onward⟩ := ih (reference.step next)
    exact ⟨later.trans part, onward.trans offset⟩

/-- What is written of a reference that is spelled right is the text behind the dollar sign. -/
theorem Spelled.text_eq (spelled : reference.Spelled) :
    reference.text = "$" ++ reference.written := by
  rw [spelled.written, spelled.text, textFor]

/-- A reference that is spelled right is read from its own text. -/
theorem Spelled.ofText_text (spelled : reference.Spelled) :
    ofText reference.text reference.offset reference.context = .ok reference :=
  ofText_eq_ok.mpr ⟨spelled, rfl, rfl, rfl⟩

/-- However a reference is changed in place after it was read, and whether the changes succeed or
fail: its text is a dollar sign and its name as it is written, whose parts are names without a
colon; read again, the text gives this very reference, which resolves alike and has the same key;
the prefix, or its absence, and the offset are those that were read; and a change that fails leaves
the reference as it is. What is read as a name is what is written of it. -/
theorem run_stays_spelled {text : String} {offset : Nat} {read : Reference}
    (reads : ofText text offset context = .ok read) (changes : List Change) :
    let reference := changes.foldl advance read
    reference.text = "$" ++ reference.name.display ∧
    reference.name.Proper ∧
    reference.text = "$" ++ reference.written ∧
    ofText reference.text offset context = .ok reference ∧
    reference.name.prefixPart = read.name.prefixPart ∧ reference.offset = offset ∧
    (∀ next fault after, carryOut next reference = .error fault after → after = reference) ∧
    ∀ text name, PrefixedName.ofText text = .ok name → name.display = text := by
  intro reference
  have same : reference = read.run changes := run_in_place read changes
  obtain ⟨start, _, placed, found⟩ := ofText_eq_ok.mp reads
  obtain ⟨spelled, around⟩ := start.run changes
  obtain ⟨part, still⟩ := read.run_keeps changes
  rw [← same] at spelled around part still
  have again := spelled.ofText_text
  rw [still, around, placed, found] at again
  refine ⟨spelled.text, spelled.proper, spelled.text_eq, again, part, still.trans placed, ?_, ?_⟩
  · intro next fault after failed
    rw [carryOut_eq] at failed
    split at failed <;> cases failed
    rfl
  · intro text name named
    exact (PrefixedName.ofText_eq_ok.mp named).2

/-- Two changes that succeed, one by binding, and three that fail. -/
def changing : List Change :=
  [.rename "q:größe", .rename "1x", .bindTo (.other "a b"), .bindTo (.declaration Sample.plain),
    .rename "y:"]

open Sample in
theorem run_stays_spelled_mention :
    ofText "$p:x" 0 (.scopes outside) = .ok mention ∧
      (changing.foldl advance mention).text = "$p:y" ∧
      ofText "$p:y" 0 (.scopes outside) = .ok (changing.foldl advance mention) := by
  have reads : ofText "$p:x" 0 (.scopes outside) = .ok mention := by decide +kernel
  have text : (changing.foldl advance mention).text = "$p:y" := by decide +kernel
  obtain ⟨_, _, _, again, _⟩ := run_stays_spelled reads changing
  exact ⟨reads, text, text ▸ again⟩

end Reference

end Depot.XPath

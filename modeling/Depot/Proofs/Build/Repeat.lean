import Depot.Proofs.Build.Walk

set_option autoImplicit false

namespace Depot.Assembler

open Slot (Separate)

/-- An update for a change finds an entry at a slot and, in a container that it goes through, at all
slots inside. It does not look into what the change does not reach. -/
inductive Gapless (workspace : Workspace) (changed : Source) : Slot → Option Entry → Prop where
  | file {name : Name} {source : Source} {entry : Entry} :
    Gapless workspace changed (.file name source) (some entry)
  | unreached {slot : Slot} {entry : Entry}
    (unreached : workspace.reaches changed slot.touches = .ok false) :
    Gapless workspace changed slot (some entry)
  | container {kind : ContainerKind} {name : Name} {touches : List Touch} {slots : List Slot}
    {entry : Entry} {members : List Entry} (held : inside? kind (some entry) = some members)
    (each : ∀ slot ∈ slots, Gapless workspace changed slot (Entry.named? members slot.name)) :
    Gapless workspace changed (.container kind name touches (.ok slots)) (some entry)

variable {assembler : Assembler} {changed : Source} {path : Path} {slot : Slot} {slots : List Slot}

theorem Gapless.exists_entry {before? : Option Entry}
    (gapless : Gapless assembler.workspace changed slot before?) :
    ∃ entry, before? = some entry := by
  cases gapless <;> exact ⟨_, rfl⟩

theorem Contributes.unique {scope : Scope} {previous : Option (List Entry)}
    {part other : List Entry}
    {work more : Effort} (first : Contributes assembler scope path previous slot part work)
    (second : Contributes assembler scope path previous slot other more) : part = other := by
  have same := (contribution_eq_ok.mpr first).symm.trans (contribution_eq_ok.mpr second)
  exact congrArg Prod.fst (Except.ok.inj same)

/-- Bytes that were made from the same members are not made again. -/
theorem wrap_again {kind : ContainerKind} {name : Name} {before? : Option Entry}
    {members : List Entry} {result : Entry} {effort : Effort}
    (made : assembler.wrap kind path name before? members = .ok (result, effort)) :
    assembler.wrap kind path name (some result) members = .ok (result, .none) := by
  cases kind with
  | directory =>
    cases made
    rfl
  | archive =>
    obtain ⟨bytes, rfl⟩ := archive_eq_ok made
    simp [wrap, archive, archiveBefore, Entry.ofArchive]

/-- If each slot contributes again what it contributed, all of them do, in another build too. Their
effort is accounted for together as it is for each of them. -/
theorem entries_again {scope scope' : Scope} {previous previous' : Option (List Entry)}
    (spends : Slot → Effort → Prop) (spendsEach : List Slot → Effort → Prop)
    (none : spendsEach [] .none)
    (next : ∀ {slot rest work more}, spends slot work → spendsEach rest more →
      spendsEach (slot :: rest) (work + more))
    (again : ∀ slot ∈ slots, ∀ part work, Contributes assembler scope path previous slot part work →
      ∃ work', Contributes assembler scope' path previous' slot part work' ∧ spends slot work') :
    ∀ {results : List Entry} {effort : Effort},
      assembler.entries scope path previous slots = .ok (results, effort) →
      ∃ effort', assembler.entries scope' path previous' slots = .ok (results, effort') ∧
        spendsEach slots effort' := by
  induction slots with
  | nil =>
    intro results effort built
    cases built
    exact ⟨.none, rfl, none⟩
  | cons slot rest ih =>
    intro results effort built
    obtain ⟨first, work, others, more, here, there, rfl, rfl⟩ := entries_cons_eq_ok.mp built
    obtain ⟨work', hereAgain, spent⟩ := again slot List.mem_cons_self first work here
    obtain ⟨more', thereAgain, spentMore⟩ :=
      ih (fun slot present => again slot (List.mem_cons_of_mem _ present)) there
    exact ⟨work' + more', entries_cons_eq_ok.mpr ⟨_, _, _, _, hereAgain, thereAgain, rfl, rfl⟩,
      next spent spentMore⟩

/-- Where an entry of a slot was built and has no gaps, it is built again as it is. -/
def Repeats (assembler : Assembler) (changed : Source) (slot : Slot) : Prop :=
  ∀ path before? entry work, Gapless assembler.workspace changed slot (some entry) →
    assembler.reached (.changed changed) slot.touches = .ok true →
    assembler.entry (.changed changed) path before? slot = .ok (entry, work) →
    ∃ work', assembler.entry (.changed changed) path (some entry) slot = .ok (entry, work') ∧
      work'.encoded = 0

theorem Contributes.again {previous : Option (List Entry)} {results part : List Entry}
    {effort : Effort}
    (contributes : Contributes assembler (.changed changed) path previous slot part effort)
    (repeats : Repeats assembler changed slot) (found : Entry.named? results slot.name = part.head?)
    (gapless : Gapless assembler.workspace changed slot (Entry.named? results slot.name)) :
    ∃ work', Contributes assembler (.changed changed) path (some results) slot part work' ∧
      work'.encoded = 0 := by
  cases contributes with
  | @built entry _ reached made =>
    have there : former (some results) slot = some entry := found
    rw [found] at gapless
    obtain ⟨work', again, nothing⟩ := repeats path _ entry effort gapless reached made
    exact ⟨work', .built reached (there ▸ again), nothing⟩
  | kept unreached _ => exact ⟨.none, .kept unreached found, rfl⟩
  | supplied unreached _ _ _ => exact ⟨.none, .kept unreached found, rfl⟩
  | skipped _ _ =>
    obtain ⟨entry, present⟩ := gapless.exists_entry
    rw [found] at present
    cases present

/-- A walk after which nothing is missing ends the same way the next time. -/
theorem entries_repeat {previous : Option (List Entry)} {results : List Entry} {effort : Effort}
    (built : assembler.entries (.changed changed) path previous slots = .ok (results, effort))
    (distinct : (slots.map Slot.name).Nodup)
    (repeats : ∀ slot ∈ slots, Repeats assembler changed slot)
    (gapless : ∀ slot ∈ slots,
      Gapless assembler.workspace changed slot (Entry.named? results slot.name)) :
    ∃ effort', assembler.entries (.changed changed) path (some results) slots =
      .ok (results, effort') ∧ effort'.encoded = 0 := by
  refine entries_again (fun _ work => work.encoded = 0) (fun _ work => work.encoded = 0) rfl
    (fun nothing more => by simp only [Effort.add_eq, nothing, more])
    (fun slot present part work contributes => ?_) built
  obtain ⟨part', work', contributes', found⟩ := entries_named? built distinct present
  have same : part = part' := contributes.unique contributes'
  rw [← same] at found
  exact contributes.again (repeats slot present) found (gapless slot present)

/-- By induction on the slot. -/
theorem repeats (slot : Slot) (separate : Separate slot) : Repeats assembler changed slot := by
  induction slot using Slot.induct with
  | file name source =>
    intro path before? entry work _ _ made
    rcases file_eq_ok.mp made with ⟨stale, _⟩ | ⟨_, _, content, read, rfl⟩
    · cases stale
    · exact ⟨⟨1, 0, 0⟩, file_eq_ok.mpr (.inr ⟨rfl, rfl, content, read, rfl⟩), rfl⟩
  | failed kind name touches fault =>
    intro path before? entry work _ _ made
    exact absurd made not_container_error
  | container kind name touches slots ih =>
    intro path before? entry work gapless reached made
    obtain ⟨members, inner, wrapping, built, wrapped, rfl⟩ := container_eq_ok.mp made
    have inside := (wrap_eq_ok wrapped).2.2
    obtain ⟨distinct, separateEach⟩ := separate.inside
    cases gapless with
    | unreached unreached => exact nomatch reached.symm.trans unreached
    | container held each =>
      obtain rfl := Option.some.inj (inside.symm.trans held)
      obtain ⟨inner', again, nothing⟩ := entries_repeat built distinct
        (fun slot present => ih slot present (separateEach slot present)) each
      refine ⟨inner' + .none, container_eq_ok.mpr ⟨members, inner', .none, ?_, ?_, rfl⟩, ?_⟩
      · rw [remembered_changed, held]
        exact again
      · exact wrap_again wrapped
      · simp only [Effort.add_eq, Effort.none, nothing]

/-- The entry of a slot that was built twice, the second time from the first result, has no gaps. -/
def Fills (assembler : Assembler) (changed : Source) (slot : Slot) : Prop :=
  ∀ path before? first work second more,
    assembler.entry (.changed changed) path before? slot = .ok (first, work) →
    assembler.entry (.changed changed) path (some first) slot = .ok (second, more) →
    Gapless assembler.workspace changed slot (some second)

theorem Contributes.gapless {previous : Option (List Entry)} {results part part' : List Entry}
    {work more : Effort} (fills : Fills assembler changed slot)
    (first : Contributes assembler (.changed changed) path previous slot part work)
    (found : Entry.named? results slot.name = part.head?)
    (second : Contributes assembler (.changed changed) path (some results) slot part' more) :
    Gapless assembler.workspace changed slot part'.head? := by
  cases second with
  | kept unreached _ => exact .unreached unreached
  | supplied unreached _ _ _ => exact .unreached unreached
  | skipped _ new => cases new
  | @built entry _ reached made =>
    have there : former (some results) slot = part.head? := found
    rw [there] at made
    cases first with
    | @built before _ _ madeBefore => exact fills path _ before work entry more madeBefore made
    | kept unreached _ => exact nomatch reached.symm.trans unreached
    | supplied unreached _ _ _ => exact nomatch reached.symm.trans unreached
    | skipped unreached _ => exact nomatch reached.symm.trans unreached

theorem entries_fill {previous : Option (List Entry)} {results results' : List Entry}
    {work more : Effort}
    (first : assembler.entries (.changed changed) path previous slots = .ok (results, work))
    (second : assembler.entries (.changed changed) path (some results) slots = .ok (results', more))
    (distinct : (slots.map Slot.name).Nodup)
    (fills : ∀ slot ∈ slots, Fills assembler changed slot) :
    ∀ slot ∈ slots, Gapless assembler.workspace changed slot (Entry.named? results' slot.name) := by
  intro slot present
  obtain ⟨part, _, before, found⟩ := entries_named? first distinct present
  obtain ⟨part', _, after, found'⟩ := entries_named? second distinct present
  rw [found']
  exact before.gapless (fills slot present) found after

/-- By induction on the slot. -/
theorem fills (slot : Slot) (separate : Separate slot) : Fills assembler changed slot := by
  induction slot using Slot.induct with
  | file name source =>
    intro path before? first work second more _ _
    exact .file
  | failed kind name touches fault =>
    intro path before? first work second more made _
    exact absurd made not_container_error
  | container kind name touches slots ih =>
    intro path before? first work second more madeFirst madeSecond
    obtain ⟨members, _, _, built, wrapped, _⟩ := container_eq_ok.mp madeFirst
    obtain ⟨members', _, _, built', wrapped', _⟩ := container_eq_ok.mp madeSecond
    obtain ⟨distinct, separateEach⟩ := separate.inside
    rw [remembered_changed, (wrap_eq_ok wrapped).2.2] at built'
    exact .container (wrap_eq_ok wrapped').2.2 (entries_fill built built' distinct
      fun slot present => ih slot present (separateEach slot present))

/-- An update leaves no gaps in the entry of a slot that had none. -/
def Stays (assembler : Assembler) (changed : Source) (slot : Slot) : Prop :=
  ∀ path before? entry work, Gapless assembler.workspace changed slot before? →
    assembler.entry (.changed changed) path before? slot = .ok (entry, work) →
    Gapless assembler.workspace changed slot (some entry)

theorem Contributes.stays {previous part : List Entry} {work : Effort}
    (stays : Stays assembler changed slot)
    (contributes : Contributes assembler (.changed changed) path (some previous) slot part work)
    (gapless : Gapless assembler.workspace changed slot (Entry.named? previous slot.name)) :
    Gapless assembler.workspace changed slot part.head? := by
  have here : former (some previous) slot = Entry.named? previous slot.name := rfl
  rw [← here] at gapless
  cases contributes with
  | @built entry _ _ made => exact stays path _ entry work gapless made
  | kept _ found =>
    rw [found] at gapless
    exact gapless
  | supplied unreached _ _ _ => exact .unreached unreached
  | skipped _ new => cases new

theorem entries_stay {previous results : List Entry} {work : Effort}
    (built : assembler.entries (.changed changed) path (some previous) slots = .ok (results, work))
    (distinct : (slots.map Slot.name).Nodup) (stays : ∀ slot ∈ slots, Stays assembler changed slot)
    (gapless : ∀ slot ∈ slots,
      Gapless assembler.workspace changed slot (Entry.named? previous slot.name)) :
    ∀ slot ∈ slots, Gapless assembler.workspace changed slot (Entry.named? results slot.name) := by
  intro slot present
  obtain ⟨part, _, contributes, found⟩ := entries_named? built distinct present
  rw [found]
  exact contributes.stays (stays slot present) (gapless slot present)

/-- By induction on the slot. -/
theorem stays (slot : Slot) (separate : Separate slot) : Stays assembler changed slot := by
  induction slot using Slot.induct with
  | file name source =>
    intro path before? entry work _ _
    exact .file
  | failed kind name touches fault =>
    intro path before? entry work _ made
    exact absurd made not_container_error
  | container kind name touches slots ih =>
    intro path before? entry work gapless made
    obtain ⟨members, _, _, built, wrapped, _⟩ := container_eq_ok.mp made
    obtain ⟨distinct, separateEach⟩ := separate.inside
    cases gapless with
    | unreached unreached => exact .unreached unreached
    | container held each =>
      rw [remembered_changed, held] at built
      exact .container (wrap_eq_ok wrapped).2.2 (entries_stay built distinct
        (fun slot present => ih slot present (separateEach slot present)) each)

variable {plan : Plan} {previous : Option (List Entry)} {results : List Entry} {effort : Effort}

/-- Nothing is missing in an output where an update for a change looks. -/
def GaplessOutput (assembler : Assembler) (changed : Source) (plan : Plan) (entries : List Entry) :
    Prop :=
  ∀ slots, assembler.resolver.slots plan = .ok slots → ∀ slot ∈ slots,
    Gapless assembler.workspace changed slot (Entry.named? entries slot.name)

theorem output_repeat
    (built : assembler.output (.changed changed) plan previous = .ok (results, effort))
    (gapless : GaplessOutput assembler changed plan results) :
    ∃ effort', assembler.output (.changed changed) plan (some results) = .ok (results, effort') ∧
      effort'.encoded = 0 := by
  obtain ⟨slots, resolved, walked⟩ := output_eq_ok.mp built
  obtain ⟨distinct, separate⟩ := Resolver.slots_separate resolved
  obtain ⟨effort', again, nothing⟩ := entries_repeat walked distinct
    (fun slot present => repeats slot (separate slot present)) (gapless slots resolved)
  exact ⟨effort', output_eq_ok.mpr ⟨slots, resolved, again⟩, nothing⟩

theorem output_stays {previous : List Entry}
    (built : assembler.output (.changed changed) plan (some previous) = .ok (results, effort))
    (gapless : GaplessOutput assembler changed plan previous) :
    GaplessOutput assembler changed plan results := by
  intro slots resolved
  obtain ⟨slots', resolved', walked⟩ := output_eq_ok.mp built
  obtain rfl := Except.ok.inj (resolved.symm.trans resolved')
  obtain ⟨distinct, separate⟩ := Resolver.slots_separate resolved
  exact entries_stay walked distinct (fun slot present => stays slot (separate slot present))
    (gapless slots resolved)

theorem output_fill {results' : List Entry} {effort' : Effort}
    (first : assembler.output (.changed changed) plan previous = .ok (results, effort))
    (second : assembler.output (.changed changed) plan (some results) = .ok (results', effort')) :
    GaplessOutput assembler changed plan results' := by
  intro slots resolved
  obtain ⟨slots', resolved', walked⟩ := output_eq_ok.mp first
  obtain ⟨slots'', resolved'', walked'⟩ := output_eq_ok.mp second
  obtain rfl := Except.ok.inj (resolved.symm.trans resolved')
  obtain rfl := Except.ok.inj (resolved.symm.trans resolved'')
  obtain ⟨distinct, separate⟩ := Resolver.slots_separate resolved
  exact entries_fill walked walked' distinct fun slot present => fills slot (separate slot present)

end Depot.Assembler

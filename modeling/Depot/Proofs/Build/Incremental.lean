import Depot.Proofs.Build.Settled

set_option autoImplicit false

namespace Depot.Assembler

open Slot (Reached Covered Layered)
open Entry (Sealed Encoded)

variable (assembler : Assembler) (changed : Source)

/-- An entry from before whose archives can be used again: they hold what their members give, and
all that was hashed for it is among the strings. -/
structure Trusted (strings : List Bytes) (entry : Entry) : Prop where
  encoded : Encoded assembler.codec assembler.compression entry
  hashed : entry.hashed ⊆ strings

/-- What an update makes of an entry from before, as far as no two of the strings collide. -/
structure Advances (strings : List Bytes) (slot : Slot) (before? : Option Entry) (result : Entry) :
    Prop where
  encoded : Encoded assembler.codec assembler.compression result
  covered : Covered assembler.workspace changed slot → assembler.complete? slot = some result
  settled : ∀ pending, Settled assembler (changed :: pending) slot before? →
    Settled assembler pending slot (some result)

/-- A slot can be updated from every entry that it may have had before. -/
def Updates (slot : Slot) : Prop :=
  ∀ path before?, (∀ before ∈ before?, Sealed assembler.hash before) →
    ∃ result effort, assembler.entry (.changed changed) path before? slot = .ok (result, effort) ∧
      result.name = slot.name ∧ Sealed assembler.hash result ∧
      ∀ strings, assembler.hash.Separates strings → result.hashed ⊆ strings →
        (∀ before ∈ before?, Trusted assembler strings before) →
        Advances assembler changed strings slot before? result

/-- What an update makes of the entries of a container, which are among the strings. -/
structure AdvancesEach (strings : List Bytes) (slots : List Slot) (previous : Option (List Entry))
    (results : List Entry) : Prop where
  encoded : ∀ result ∈ results, Encoded assembler.codec assembler.compression result
  covered : (∀ slot ∈ slots, Covered assembler.workspace changed slot) →
    List.Forall₂ (fun slot result => assembler.complete? slot = some result) slots results
  settled : ∀ members ∈ previous, List.Forall₂ (fun slot result => result.name = slot.name ∧
    ∀ pending, Settled assembler (changed :: pending) slot (Entry.named? members slot.name) →
      Settled assembler pending slot (some result)) slots results

/-- Entries that an update gives for some slots. -/
structure Updated (slots : List Slot) (previous : Option (List Entry)) (results : List Entry) :
    Prop where
  names : (results.map Entry.name).Sublist (slots.map Slot.name)
  closed : ∀ result ∈ results, Sealed assembler.hash result
  advances : ∀ strings, assembler.hash.Separates strings → Entry.hashedEach results ⊆ strings →
    (∀ members ∈ previous, ∀ member ∈ members, Trusted assembler strings member) →
    AdvancesEach assembler changed strings slots previous results

variable {assembler changed}

theorem Updated.nil (previous : Option (List Entry)) : Updated assembler changed
    [] previous [] where
  names := .slnil
  closed := by simp
  advances _ _ _ _ := ⟨by simp, fun _ => .nil, fun _ _ => .nil⟩

theorem Updated.cons {slot : Slot} {rest : List Slot} {previous : Option (List Entry)}
    {first others : List Entry} (here : Updated assembler changed [slot] previous first)
    (later : Updated assembler changed rest previous others) :
    Updated assembler changed (slot :: rest) previous (first ++ others) where
  names := by
    rw [List.map_append]
    exact here.names.append later.names
  closed result present := by
    rcases List.mem_append.mp present with present | present
    · exact here.closed result present
    · exact later.closed result present
  advances strings separates hashed trusted := by
    simp only [Entry.hashedEach_eq, List.flatMap_append, List.append_subset] at hashed
    have ahead := here.advances strings separates (by simpa [Entry.hashedEach_eq] using hashed.1)
      trusted
    have behind := later.advances strings separates (by simpa [Entry.hashedEach_eq] using hashed.2)
      trusted
    refine ⟨fun result present => ?_, fun covered => ?_, fun members held => ?_⟩
    · rcases List.mem_append.mp present with present | present
      · exact ahead.encoded result present
      · exact behind.encoded result present
    · have one := ahead.covered fun other present => covered other (by simp_all)
      have all := behind.covered fun other present => covered other (List.mem_cons_of_mem _ present)
      exact List.rel_append one all
    · exact List.rel_append (ahead.settled members held) (behind.settled members held)

/-- One entry for one slot. -/
theorem Updated.single {slot : Slot} {previous : Option (List Entry)} {result : Entry}
    (name : result.name = slot.name) (closed : Sealed assembler.hash result)
    (advances : ∀ strings, assembler.hash.Separates strings → result.hashed ⊆ strings →
      (∀ members ∈ previous, ∀ member ∈ members, Trusted assembler strings member) →
      Advances assembler changed strings slot
        (previous.bind fun entries => Entry.named? entries slot.name) result) :
    Updated assembler changed [slot] previous [result] where
  names := by simp [name]
  closed other present := List.mem_singleton.mp present ▸ closed
  advances strings separates hashed trusted := by
    have advance := advances strings separates (by simpa [Entry.hashedEach] using hashed) trusted
    refine ⟨fun other present => ?_, fun covered => ?_, fun members held => ?_⟩
    · rw [List.mem_singleton.mp present]
      exact advance.encoded
    · exact .cons (advance.covered (covered slot List.mem_cons_self)) .nil
    · refine .cons ⟨name, ?_⟩ .nil
      rw [Option.mem_def.mp held] at advance
      exact advance.settled

/-- What one slot adds to a container. -/
theorem contribution_updated {slot : Slot} (updates : Updates assembler changed slot)
    (layered : Layered assembler.workspace slot) {full : Entry}
    (complete : assembler.complete? slot = some full) (path : Path) {previous : Option (List Entry)}
    (closed : ∀ members ∈ previous, ∀ member ∈ members, Sealed assembler.hash member) :
    ∃ results effort,
      assembler.contribution (.changed changed) path previous slot = .ok (results, effort) ∧
        Updated assembler changed [slot] previous results := by
  obtain ⟨reached, known, meaning⟩ := @Slot.reaches_of_layered _ changed _ layered
  have held : ∀ before,
      before ∈ previous.bind (fun entries => Entry.named? entries slot.name) →
      ∃ members ∈ previous, before ∈ members ∧ before.name = slot.name := by
    intro before found
    obtain ⟨members, there, found⟩ := Option.bind_eq_some_iff.mp found
    exact ⟨members, there, named?_mem found⟩
  simp only [contribution, Assembler.reached, known, bind, Except.bind]
  cases reached with
  | true =>
    obtain ⟨result, effort, built, name, resultSealed, advances⟩ :=
      updates path (previous.bind fun entries => Entry.named? entries slot.name)
        fun before found => by
        obtain ⟨members, there, present, _⟩ := held before found
        exact closed members there before present
    simp only [built, if_true]
    refine ⟨_, _, rfl, .single name resultSealed fun strings separates hashed trusted => ?_⟩
    refine advances strings separates hashed fun before found => ?_
    obtain ⟨members, there, present, _⟩ := held before found
    exact trusted members there before present
  | false =>
    have unreached : ¬ Reached assembler.workspace changed slot := by simpa using meaning
    simp only [Bool.false_eq_true, if_false]
    cases found : previous.bind fun entries => Entry.named? entries slot.name with
    | some before =>
      obtain ⟨members, there, present, name⟩ := held before found
      refine ⟨_, _, rfl, .single name (closed members there before present) ?_⟩
      intro strings separates hashed trusted
      rw [found]
      refine ⟨(trusted members there before present).encoded,
        fun covered => absurd covered.reached unreached, fun pending settled => ?_⟩
      exact settled.of_unreached layered unreached
    | none =>
      cases previous with
      | none =>
        refine ⟨[], .none, rfl, by simp, by simp, ?_⟩
        intro strings separates hashed trusted
        refine ⟨by simp, fun covered => ?_, by simp⟩
        exact absurd (covered slot List.mem_cons_self).reached unreached
      | some members =>
        obtain ⟨effort, built⟩ :
            ∃ effort, assembler.entry .everything path none slot = .ok (full, effort) :=
          (entry_everything slot).mpr complete
        obtain ⟨fullSealed, encoded⟩ := sealed_complete layered complete
        refine ⟨[full], effort, by simp [built, pure, Except.pure],
          .single (name_complete? complete) fullSealed ?_⟩
        intro strings separates hashed trusted
        exact ⟨encoded, fun _ => complete, fun _ _ => .whole complete⟩

/-- The entries of a container, by induction on its slots. -/
theorem entries_updated {slots : List Slot}
    (updates : ∀ slot ∈ slots, Updates assembler changed slot)
    (layered : ∀ slot ∈ slots, Layered assembler.workspace slot)
    (complete : assembler.Buildable slots) (path : Path) {previous : Option (List Entry)}
    (closed : ∀ members ∈ previous, ∀ member ∈ members, Sealed assembler.hash member) :
    ∃ results effort, assembler.entries (.changed changed) path previous slots =
        .ok (results, effort) ∧ Updated assembler changed slots previous results := by
  induction slots with
  | nil => exact ⟨[], .none, by simp [entries], .nil previous⟩
  | cons slot rest ih =>
    obtain ⟨full, whole⟩ := complete slot List.mem_cons_self
    obtain ⟨first, effort, here, ahead⟩ := contribution_updated (updates slot List.mem_cons_self)
      (layered slot List.mem_cons_self) whole path closed
    obtain ⟨others, more, there, behind⟩ := ih
      (fun other present => updates other (List.mem_cons_of_mem _ present))
      (fun other present => layered other (List.mem_cons_of_mem _ present))
      (fun other present => complete other (List.mem_cons_of_mem _ present))
    refine ⟨first ++ others, effort + more, ?_, ahead.cons behind⟩
    simp only [entries_cons, here, there, bind, Except.bind, pure, Except.pure]

theorem inside?_closed {kind : ContainerKind} {before? : Option Entry}
    (closed : ∀ before ∈ before?, Sealed assembler.hash before) :
    ∀ members ∈ inside? kind before?, ∀ member ∈ members, Sealed assembler.hash member := by
  intro members held member present
  cases before? with
  | none => cases kind <;> cases held
  | some before =>
    have outer := closed before rfl
    cases outer <;> cases kind <;> cases held
    · next inner => exact inner member present
    · next inner => exact inner member present

theorem inside?_trusted {kind : ContainerKind} {strings : List Bytes} {before? : Option Entry}
    (trusted : ∀ before ∈ before?, Trusted assembler strings before) :
    ∀ members ∈ inside? kind before?, ∀ member ∈ members, Trusted assembler strings member := by
  intro members held member present
  cases before? with
  | none => cases kind <;> cases held
  | some before =>
    obtain ⟨encoded, hashed⟩ := trusted before rfl
    cases encoded <;> cases kind <;> cases held
    · next inner =>
      simp only [Entry.hashed, List.cons_subset] at hashed
      exact ⟨inner member present, List.Subset.trans (Entry.hashed_subset present) hashed.2⟩
    · next encoded inner =>
      simp only [Entry.hashed, List.cons_subset] at hashed
      exact ⟨inner member present, List.Subset.trans (Entry.hashed_subset present) hashed.2.2⟩

/-- Distinct siblings can always be grouped, and the group is what a build of everything makes of
them, unless byte strings collide. -/
theorem archive_encloses (lengths : ∀ content, (assembler.hash content).bytes.length = 32)
    (path : Path) (name : Name) {before? : Option Entry}
    (closed : ∀ before ∈ before?, Sealed assembler.hash before) {results : List Entry}
    (distinct : (results.map Entry.name).Nodup)
    (resultsSealed : ∀ result ∈ results, Sealed assembler.hash result) :
    ∃ bytes effort, assembler.archive path name (archiveBefore before?) results =
        .ok (.ofArchive assembler.hash name results bytes, effort) ∧
      ∀ strings, assembler.hash.Separates strings →
        Entry.listing results :: Entry.hashedEach results ⊆ strings →
        (∀ before ∈ before?, Trusted assembler strings before) →
        Archive.encodeWith assembler.codec assembler.compression (Entry.toMembers results) =
          .ok bytes := by
  obtain ⟨fresh, written⟩ :=
    Entry.encodeWith_of_sealed assembler.codec assembler.compression distinct resultsSealed
  cases found : archiveBefore before? with
  | none =>
    refine ⟨fresh, ⟨0, 0, 1⟩, ?_, fun _ _ _ _ => written⟩
    simp only [archive, Option.bind_none, written]
  | some previous =>
    obtain ⟨members, bytes⟩ := previous
    obtain ⟨name', digest, rfl⟩ : ∃ name' digest, before? =
        some (.archive name' members bytes digest) := by
      unfold archiveBefore at found
      split at found
      · cases found
        exact ⟨_, _, rfl⟩
      · cases found
    by_cases same : Entry.listDigest assembler.hash results =
      Entry.listDigest assembler.hash members
    · refine ⟨bytes, .none, by simp only [archive, Option.bind_some, same, if_true], ?_⟩
      intro strings separates hashed trusted
      have before := trusted _ rfl
      have inner : ∀ member ∈ members, Sealed assembler.hash member := by
        cases closed _ rfl with
        | archive _ inner => exact inner
      have beforeHashed := before.hashed
      simp only [Entry.hashed, List.cons_subset] at beforeHashed
      have equal : Entry.toMembers results = Entry.toMembers members :=
        Entry.toMembers_of_listDigest lengths separates resultsSealed inner hashed
          (List.cons_subset.mpr beforeHashed.2) same
      rw [equal]
      cases before.encoded with
      | archive encoded _ => exact encoded
    · refine ⟨fresh, ⟨0, 0, 1⟩, ?_, fun _ _ _ _ => written⟩
      simp only [archive, Option.bind_some, same, if_false, written]

/-- Updating a container settles it. -/
theorem advances_container {kind : ContainerKind} {name : Name} {touches : List Touch}
    {slots : List Slot}
    (layered : Layered assembler.workspace (.container kind name touches (.ok slots)))
    {strings : List Bytes} {before? : Option Entry} {results : List Entry}
    (each : AdvancesEach assembler changed strings slots (inside? kind before?) results)
    {result : Entry} (enclosed : assembler.enclose? kind name results = some result) :
    (Covered assembler.workspace changed (.container kind name touches (.ok slots)) →
      assembler.complete? (.container kind name touches (.ok slots)) = some result) ∧
    ∀ pending,
      Settled assembler (changed :: pending) (.container kind name touches (.ok slots)) before? →
      Settled assembler pending (.container kind name touches (.ok slots)) (some result) := by
  cases layered with
  | container known distinct upward inner =>
    have whole : Covered assembler.workspace changed (.container kind name touches (.ok slots)) →
        assembler.complete? (.container kind name touches (.ok slots)) = some result := by
      rintro (_ | ⟨_, covered⟩)
      exact complete?_container.mpr ⟨results, each.covered covered, enclosed⟩
    refine ⟨whole, fun pending settled => ?_⟩
    by_cases covered : ∃ source ∈ changed :: pending,
        Covered assembler.workspace source (.container kind name touches (.ok slots))
    · obtain ⟨source, waiting, covered⟩ := covered
      rcases List.mem_cons.mp waiting with rfl | waiting
      · exact .whole (whole covered)
      · exact .covered waiting covered
    · obtain ⟨members, held, settledEach⟩ := settled.inside distinct fun source waiting within =>
        covered ⟨source, waiting, within⟩
      have progress := each.settled members held
      by_cases waiting : ∃ source ∈ pending,
          Reached assembler.workspace source (.container kind name touches (.ok slots))
      · obtain ⟨source, waiting, reached⟩ := waiting
        refine .container waiting reached (inside?_enclose? enclosed) fun slot present => ?_
        obtain ⟨entry, _, found, _, advance⟩ :=
          named?_of_forall₂ progress (fun _ _ related => related.1) distinct present
        rw [found]
        exact advance pending (settledEach slot present)
      · -- no change is left for this container, so each slot inside is as in a build of everything
        have unreached : ∀ slot ∈ slots, ∀ source ∈ pending,
            ¬ Reached assembler.workspace source slot := fun slot present source left reached =>
          waiting ⟨source, left, upward source slot present reached⟩
        have facts := (List.forall₂_and_left slots results).mpr
          ⟨fun slot present => And.intro (settledEach slot present) (unreached slot present),
            progress⟩
        refine .whole (complete?_container.mpr ⟨results, facts.imp ?_, enclosed⟩)
        rintro slot entry ⟨⟨settled, apart⟩, _, advance⟩
        exact ((advance pending settled).eq_complete apart).symm

theorem file_updates {name : Name} {source : Source} {full : Entry}
    (complete : assembler.complete? (.file name source) = some full) :
    Updates assembler changed (.file name source) := by
  intro path before? _
  have built : assembler.entry (.changed changed) path before? (.file name source) =
      .ok (full, ⟨1, 0, 0⟩) := by
    cases read : assembler.workspace.read source with
    | error fault => simp [complete?, read] at complete
    | ok content =>
      simp only [complete?, read, Option.some.injEq] at complete
      simp only [entry, file, current?, read, complete]
  obtain ⟨fullSealed, encoded⟩ := sealed_complete (.file name source) complete
  refine ⟨full, _, built, name_complete? complete, fullSealed, fun strings _ _ _ => ?_⟩
  exact ⟨encoded, fun _ => complete, fun _ _ => .whole complete⟩

section Inside

variable {name : Name} {touches : List Touch} {slots : List Slot}
  (updatesEach : ∀ slot ∈ slots, Updates assembler changed slot)
  (buildable : assembler.Buildable slots)

include updatesEach buildable

theorem directory_updates
    (layered : Layered assembler.workspace (.container .directory name touches (.ok slots))) :
    Updates assembler changed (.container .directory name touches (.ok slots)) := by
  intro path before? closed
  obtain ⟨results, effort, built, updated⟩ := entries_updated updatesEach layered.inner buildable
    (path.push name) (@inside?_closed assembler .directory before? closed)
  have inner : assembler.entries (.changed changed) (path.push name)
      (directoryBefore (remembered (.changed changed) before?)) slots = .ok (results, effort) :=
        built
  refine ⟨.ofDirectory assembler.hash name results, effort, ?_, rfl,
    .directory (updated.names.nodup layered.distinct) updated.closed,
    fun strings separates hashed trusted => ?_⟩
  · simp only [entry, container, inner, bind, Except.bind, pure, Except.pure]
  · simp only [Entry.ofDirectory, Entry.hashed, List.cons_subset] at hashed
    have each := updated.advances strings separates hashed.2 (inside?_trusted trusted)
    obtain ⟨whole, settled⟩ := advances_container layered each rfl
    exact ⟨.directory each.encoded, whole, settled⟩

theorem archive_updates (lengths : ∀ content, (assembler.hash content).bytes.length = 32)
    (layered : Layered assembler.workspace (.container .archive name touches (.ok slots))) :
    Updates assembler changed (.container .archive name touches (.ok slots)) := by
  intro path before? closed
  obtain ⟨results, effort, built, updated⟩ := entries_updated updatesEach layered.inner buildable
    (path.push name) (@inside?_closed assembler .archive before? closed)
  have inner : assembler.entries (.changed changed) (path.push name)
      ((archiveBefore (remembered (.changed changed) before?)).map Prod.fst) slots =
        .ok (results, effort) := built
  have names : (results.map Entry.name).Nodup := updated.names.nodup layered.distinct
  obtain ⟨bytes, encoding, wrapped, written⟩ :=
    archive_encloses lengths (path.push name) name closed names updated.closed
  refine ⟨.ofArchive assembler.hash name results bytes, effort + encoding, ?_, rfl,
    .archive names updated.closed, fun strings separates hashed trusted => ?_⟩
  · simp only [entry, container, inner, bind, Except.bind, pure, Except.pure]
    simp only [remembered, wrapped]
  · simp only [Entry.ofArchive, Entry.hashed, List.cons_subset] at hashed
    have each := updated.advances strings separates hashed.2.2 (inside?_trusted trusted)
    have encoded := written strings separates (List.cons_subset.mpr hashed.2) trusted
    have enclosed : assembler.enclose? .archive name results =
        some (.ofArchive assembler.hash name results bytes) := by
      simp only [enclose?, encoded]
    obtain ⟨whole, settled⟩ := advances_container layered each enclosed
    exact ⟨.archive encoded each.encoded, whole, settled⟩

end Inside

/-- Every slot that a build of everything can build can be updated, by induction on the slot. -/
theorem updates (lengths : ∀ content, (assembler.hash content).bytes.length = 32) (slot : Slot) :
    Layered assembler.workspace slot → ∀ full, assembler.complete? slot = some full →
      Updates assembler changed slot := by
  induction slot using Slot.induct with
  | failed kind name touches fault => exact fun _ _ complete => by cases complete
  | file name source => exact fun _ _ complete => file_updates complete
  | container kind name touches slots ih =>
    intro layered full complete
    have buildable := buildable_of_complete complete
    have updatesEach : ∀ slot ∈ slots, Updates assembler changed slot := by
      intro slot present
      obtain ⟨entry, built⟩ := buildable slot present
      exact ih slot present (layered.inner slot present) entry built
    cases kind with
    | directory => exact directory_updates updatesEach buildable layered
    | archive => exact archive_updates updatesEach buildable lengths layered

end Depot.Assembler

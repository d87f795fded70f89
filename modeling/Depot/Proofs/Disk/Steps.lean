import Depot.Proofs.Disk.Bounds

set_option autoImplicit false

namespace Depot.Disk

variable {location : Location} {goal : List Name} {disk : Disk}

/-- The system refuses a step or does not; nothing else happens. -/
theorem permit_cases (disk : Disk) :
    ∃ between, Still disk between ∧
      ((∃ refusal, some refusal ∈ disk.refusals ∧ permit disk = .error refusal between) ∨
        permit disk = .ok () between) := by
  refine ⟨{ disk with refusals := disk.refusals.tail }, ⟨rfl, rfl, rfl, List.tail_suffix _⟩, ?_⟩
  obtain ⟨items, working, refusals, changes⟩ := disk
  cases refusals with
  | nil => exact .inr rfl
  | cons refusal? rest =>
    cases refusal? with
    | none => exact .inr rfl
    | some refusal => exact .inl ⟨refusal, List.mem_cons_self, rfl⟩

theorem make_cases (change : Change) (disk : Disk) :
    (∃ refusal after, make change disk = .error refusal after ∧ after.items = disk.items ∧
        after.working = disk.working) ∨
      ∃ after, make change disk = .ok () after ∧ after.items = change.apply disk.items ∧
        after.working = disk.working := by
  obtain ⟨between, still, ⟨refusal, _, refused⟩ | permitted⟩ := permit_cases disk
  · exact .inl ⟨refusal, between, by simp only [make, bind, EStateM.bind, refused], still.items,
      still.working⟩
  · refine .inr ⟨{ between with
      items := change.apply between.items
      changes := change :: between.changes }, ?_, by rw [still.items], still.working⟩
    simp only [make, bind, EStateM.bind, permitted]
    rfl

/-- A change that puts a file or a directory into a directory, under a name that is a text, or that
removes something. -/
structure Change.Proper (change : Change) (items : List Item) : Prop where
  around : change.thing? ≠ none → Item.thing? items change.spot.dropLast = some .directory
  plain : ∀ target, change.thing? ≠ some (.link target)
  text : change.thing? ≠ none → ∃ name ∈ change.spot.getLast?, name.Textual

theorem Change.Proper.remove (position : List Name) (name : Name) (items : List Item) :
    Change.Proper (.remove position name) items :=
  ⟨fun there => absurd rfl there, fun _ => by simp [Change.thing?], fun there => absurd rfl there⟩

theorem Change.Proper.file {position : List Name} {items : List Item}
    (around : Item.thing? items position = some .directory) {name : Name} (text : name.Textual)
    (content : Bytes) : Change.Proper (.file position name content) items where
  around _ := by rwa [Change.spot, List.dropLast_concat]
  plain _ same := nomatch same
  text _ := ⟨name, by simp [Change.spot], text⟩

variable {change : Change} {changed made : List Name → Prop} {after : Disk}

theorem bounded_of_apply (proper : change.Proper disk.items)
    (items : after.items = change.apply disk.items) (working : after.working = disk.working) :
    Bounded (change.spot <+: ·) made disk after where
  working := working
  kept spot apart := by
    rw [thing?, thing?, items, change.thing?_apart apart]
    exact .inl rfl
  named spot there := by
    rw [thing?, items] at there
    by_cases under : change.spot <+: spot
    · obtain ⟨rest, rfl⟩ := under
      rw [change.thing?_spot proper.around] at there
      by_cases last : rest = []
      · rw [if_pos last] at there
        rw [last, List.append_nil]
        exact .inr (.inr (proper.text there))
      · rw [if_neg last] at there
        exact absurd rfl there
    · rw [change.thing?_apart under] at there
      exact .inl there
  links spot target link := by
    rw [thing?, items] at link
    by_cases under : change.spot <+: spot
    · obtain ⟨rest, rfl⟩ := under
      rw [change.thing?_spot proper.around] at link
      split at link
      · exact absurd link (proper.plain target)
      · cases link
    · rwa [change.thing?_apart under] at link

theorem make_bounded (proper : change.Proper disk.items) :
    Bounded (change.spot <+: ·) made disk (afterwards (make change) disk) := by
  rcases make_cases change disk with ⟨refusal, after, ended, items, working⟩ | ⟨after, ended,
    items, working⟩
  · rw [afterwards, ended]
    exact .of_items items working
  · rw [afterwards, ended]
    exact bounded_of_apply proper items working

/-- What a change that is made brings about. -/
theorem make_done
    (around : change.thing? ≠ none → disk.thing? change.spot.dropLast = some .directory)
    (done : make change disk = .ok () after) (rest : List Name) :
    after.thing? (change.spot ++ rest) = if rest = [] then change.thing? else none := by
  rcases make_cases change disk with ⟨refusal, other, ended, _⟩ | ⟨other, ended, items, _⟩
  · rw [ended] at done
    cases done
  · rw [ended] at done
    cases done
    rw [thing?, items, change.thing?_spot around]

/-- A directory that is made where nothing was. -/
theorem makeDirectory_bounded_of_vacant {position : List Name} {name : Name}
    (around : disk.thing? position = some .directory)
    (absent : disk.thing? (position ++ [name]) = none) :
    Bounded changed (· = position ++ [name]) disk
      (afterwards (make (.directory position name)) disk) := by
  rcases make_cases (.directory position name) disk with
    ⟨refusal, after, ended, items, working⟩ | ⟨after, ended, items, working⟩
  · rw [afterwards, ended]
    exact .of_items items working
  · have shown (spot : List Name) : after.thing? spot =
        if spot = position ++ [name] then some .directory else disk.thing? spot := by
      rw [thing?, items]
      by_cases under : (Change.directory position name).spot <+: spot
      · obtain ⟨rest, rfl⟩ := under
        have within : Item.thing? disk.items (Change.spot (.directory position name)).dropLast =
            some .directory := by
          rwa [Change.spot, List.dropLast_concat]
        rw [Change.thing?_spot _ fun _ => within]
        by_cases last : rest = []
        · simp [last, Change.spot, Change.thing?]
        · have nothing : disk.thing? (position ++ [name] ++ rest) = none := by
            by_contra there
            have above := Item.thing?_prefix last there
            rw [thing?] at absent
            rw [absent] at above
            cases above
          rw [if_neg last, Change.spot, nothing, if_neg (by simpa using last)]
      · have other : spot ≠ position ++ [name] := fun same => under (by simp [same, Change.spot])
        rw [Change.thing?_apart _ under, if_neg other, thing?]
    rw [afterwards, ended]
    refine ⟨working, fun spot _ => ?_, fun spot there => ?_, fun spot target link => ?_⟩
    · by_cases same : spot = position ++ [name]
      · exact .inr ⟨same, same ▸ absent, by rw [shown, if_pos same]⟩
      · exact .inl (by rw [shown, if_neg same])
    · by_cases same : spot = position ++ [name]
      · exact .inr (.inl same)
      · rw [shown, if_neg same] at there
        exact .inl there
    · rw [shown] at link
      split at link
      · cases link
      · exact link

mutual

/-- Clearing an item changes nothing but what stands at its place and below. -/
theorem clear_bounded : (item : Item) → ∀ (position : List Name) (disk : Disk),
    Bounded (position ++ [item.name] <+: ·) made disk (afterwards (clear position item) disk)
  | .directory name items, position, disk => by
    rw [clear]
    refine .bind ?_ fun _ between _ => make_bounded (.remove position name between.items)
    refine (clearEach_bounded items (position ++ [name]) disk).widen fun spot below => ?_
    obtain ⟨first, rest, rfl⟩ := below
    exact List.prefix_append _ _
  | .file name content, position, disk => make_bounded (.remove position name disk.items)
  | .link name target, position, disk => make_bounded (.remove position name disk.items)

/-- Clearing some items of a directory changes nothing but what lies below it. -/
theorem clearEach_bounded : (items : List Item) → ∀ (position : List Name) (disk : Disk),
    Bounded (fun spot => ∃ name rest, spot = position ++ name :: rest) made disk
      (afterwards (clearEach position items) disk)
  | [], position, disk => .refl disk
  | item :: rest, position, disk => by
    rw [clearEach]
    refine .bind ?_ fun _ between _ => clearEach_bounded rest position between
    refine (clear_bounded item position disk).widen fun spot under => ?_
    obtain ⟨more, rfl⟩ := under
    exact ⟨item.name, more, by simp⟩

end

theorem lookUp_eq (through : Bool) (location : Location) (disk : Disk) :
    lookUp through location disk =
      match disk.find through location with
      | .ok found => .ok found disk
      | .error refusal => .error refusal disk := by
  show (match disk.find through location with
    | .ok found => pure found
    | .error refusal => throw refusal : DiskM Found) disk = _
  cases disk.find through location <;> rfl

/-- A step that looks something up first, given what may be found. -/
theorem lookUp_bounded {α : Type} {through : Bool} {next : Found → DiskM α}
    (there : ∀ found, disk.find through location = .ok found →
      Bounded changed made disk (afterwards (next found) disk)) :
    Bounded changed made disk (afterwards (lookUp through location >>= next) disk) := by
  rw [afterwards_bind, lookUp_eq]
  cases found : disk.find through location with
  | error refusal => exact .refl disk
  | ok found' => exact there found' found

/-- What was looked up, and what came of it. -/
theorem lookUp_done {α : Type} {through : Bool} {next : Found → DiskM α} {result : α}
    (done : (lookUp through location >>= next) disk = .ok result after) :
    ∃ found, disk.find through location = .ok found ∧ next found disk = .ok result after := by
  obtain ⟨found, between, looked, rest⟩ := bind_done_iff.mp done
  rw [lookUp_eq] at looked
  cases there : disk.find through location with
  | error refusal =>
    rw [there] at looked
    cases looked
  | ok found' =>
    rw [there] at looked
    cases looked
    exact ⟨found, rfl, rest⟩

/-- Removing a tree changes nothing but what stands at its place and below. -/
theorem removeTree_bounded (finds : Finds disk false location goal) :
    Bounded (goal <+: ·) made disk (afterwards (removeTree location) disk) := by
  refine lookUp_bounded fun found looked => ?_
  have stands := finds found looked
  cases stands with
  | file _ => exact .refl disk
  | vacant _ _ => exact .refl disk
  | directory there =>
    refine .bind (.refl disk) fun items between same => ?_
    cases same
    refine .bind ?_ fun _ cleared _ => ?_
    · refine (clearEach_bounded _ goal disk).widen fun spot below => ?_
      obtain ⟨name, rest, rfl⟩ := below
      exact List.prefix_append _ _
    · cases last : goal.getLast? with
      | none => exact .refl cleared
      | some name =>
        have whole : goal.dropLast ++ [name] = goal := List.dropLast_append_getLast? name last
        have removed := @make_bounded cleared _ made (.remove goal.dropLast name cleared.items)
        rwa [Change.spot, whole] at removed

/-- After a tree was removed nothing is left of it. -/
theorem removeTree_done {name : Name} (finds : Finds disk false location (goal ++ [name]))
    (done : removeTree location disk = .ok () after) (rest : List Name) :
    after.thing? (goal ++ [name] ++ rest) = none := by
  obtain ⟨found, looked, finished⟩ := lookUp_done done
  have stands := finds found looked
  generalize whole : goal ++ [name] = spot at stands
  cases stands with
  | file _ => cases finished
  | vacant _ _ => cases finished
  | directory there =>
    obtain ⟨items, between, _, finished⟩ := bind_done_iff.mp finished
    obtain ⟨_, cleared, _, finished⟩ := bind_done_iff.mp finished
    subst whole
    simp only [List.getLast?_concat, List.dropLast_concat] at finished
    have shown := make_done (fun there => absurd rfl there) finished rest
    rwa [Change.spot, Change.thing?, ite_self] at shown

/-- Removing a file changes nothing but what stands at its place. -/
theorem removeFile_bounded (finds : Finds disk false location goal) :
    Bounded (goal <+: ·) made disk (afterwards (removeFile location) disk) := by
  refine lookUp_bounded fun found looked => ?_
  have stands := finds found looked
  cases stands with
  | directory _ => exact .refl disk
  | vacant _ _ => exact .refl disk
  | @file position name content there => exact make_bounded (.remove position name disk.items)

theorem removeFile_done (finds : Finds disk false location goal)
    (done : removeFile location disk = .ok () after) (rest : List Name) :
    after.thing? (goal ++ rest) = none := by
  obtain ⟨found, looked, finished⟩ := lookUp_done done
  have stands := finds found looked
  cases stands with
  | directory _ => cases finished
  | vacant _ _ => cases finished
  | @file position name content there =>
    have shown := make_done (fun there => absurd rfl there) finished rest
    rwa [Change.spot, Change.thing?, ite_self] at shown

/-- A file is emptied first, and then written if it has a content. -/
def fill (position : List Name) (name : Name) (content : Bytes) : DiskM Unit := do
  make (.file position name [])
  if content.isEmpty then pure () else make (.file position name content)

theorem not_prefix_of_shorter (position : List Name) (name : Name) :
    ¬ position ++ [name] <+: position := by
  intro leads
  have length := leads.length_le
  rw [List.length_append, List.length_singleton] at length
  omega

theorem fill_bounded {position : List Name} {name : Name}
    (around : disk.thing? position = some .directory)
    (text : name.Textual) (content : Bytes) :
    Bounded (position ++ [name] <+: ·) made disk
      (afterwards (fill position name content) disk) := by
  have emptied := @make_bounded disk _ made (.file around text [])
  refine .bind emptied fun _ between done => ?_
  rw [afterwards_of_ok done] at emptied
  split
  · exact .refl between
  · have still := emptied.directory (not_prefix_of_shorter position name) around
    exact make_bounded (.file still text content)

theorem fill_done {position : List Name} {name : Name}
    (around : disk.thing? position = some .directory)
    (text : name.Textual) {content : Bytes} (done : fill position name content disk = .ok () after)
    (rest : List Name) :
    after.thing? (position ++ [name] ++ rest) = if rest =
      [] then some (.file content) else none := by
  obtain ⟨_, between, emptied, finished⟩ := bind_done_iff.mp done
  have within (disk : Disk) (there : disk.thing? position = some .directory) (content : Bytes) :
      (Change.file position name content).thing? ≠ none →
        disk.thing? (Change.file position name content).spot.dropLast = some .directory := by
    rw [Change.spot, List.dropLast_concat]
    exact fun _ => there
  split at finished
  · next empty =>
    cases finished
    rw [List.isEmpty_iff.mp empty]
    exact make_done (within disk around []) emptied rest
  · have bounded := @make_bounded disk _ (fun _ => False) (.file around text [])
    rw [afterwards_of_ok emptied] at bounded
    have still := bounded.directory (not_prefix_of_shorter position name) around
    exact make_done (within between still content) finished rest

/-- What is found where a file can be written lies in a directory. -/
theorem around_of_file {position : List Name} {name : Name} {content : Bytes}
    (there : disk.thing? (position ++ [name]) = some (.file content)) :
    disk.thing? position = some .directory :=
  Item.thing?_prefix (List.cons_ne_nil name []) fun none => by
    rw [thing?] at there
    rw [there] at none
    cases none

/-- Writing a file changes nothing but what stands at its place. -/
theorem writeFile_bounded {name : Name} (finds : Finds disk true location (goal ++ [name]))
    (text : name.Textual) (content : Bytes) :
    Bounded (goal ++ [name] <+: ·) made disk (afterwards (writeFile location content) disk) := by
  refine lookUp_bounded fun found looked => ?_
  have stands := finds found looked
  generalize whole : goal ++ [name] = spot at stands
  cases stands with
  | directory _ => exact .refl disk
  | file there =>
    obtain ⟨rfl, last⟩ := List.append_inj' whole rfl
    cases last
    exact fill_bounded (around_of_file there) text content
  | vacant around absent =>
    obtain ⟨rfl, last⟩ := List.append_inj' whole rfl
    cases last
    exact fill_bounded around text content

/-- After a file was written it is all that stands at its place. -/
theorem writeFile_done {name : Name} (finds : Finds disk true location (goal ++ [name]))
    (text : name.Textual)
    {content : Bytes} (done : writeFile location content disk = .ok () after) (rest : List Name) :
    after.thing? (goal ++ [name] ++ rest) = if rest = [] then some (.file content) else none := by
  obtain ⟨found, looked, finished⟩ := lookUp_done done
  have stands := finds found looked
  generalize whole : goal ++ [name] = spot at stands
  cases stands with
  | directory _ => cases finished
  | file there =>
    obtain ⟨rfl, last⟩ := List.append_inj' whole rfl
    cases last
    exact fill_done (around_of_file there) text finished rest
  | vacant around absent =>
    obtain ⟨rfl, last⟩ := List.append_inj' whole rfl
    cases last
    exact fill_done around text finished rest

end Depot.Disk

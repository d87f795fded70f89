import Depot.Proofs.Disk.Publish

set_option autoImplicit false

namespace Depot.Disk

open Entry (Plain)
open Location (Passes place)

/-- The way to a directory leads through nothing that lies inside the directories in it. -/
def Location.Direct (working : List Name) (location : Location) : Prop :=
  ∀ spot, Passes working location spot →
    ∀ first second rest, spot ≠ place working location ++ first :: second :: rest

/-- A location that never leads back up is direct. -/
theorem Location.direct_of_downward {location : Location}
    (downward : [Name.dot, Name.dot] ∉ Location.steps location) (working : List Name) :
    Location.Direct working location := by
  have grows (taken : List Bytes) : ∀ here : List Name, [Name.dot, Name.dot] ∉ taken →
      here <+: taken.foldl Location.enter here := by
    induction taken with
    | nil => exact fun here _ => List.prefix_refl here
    | cons step rest ih =>
      intro here downward
      have other : step ≠ [Name.dot, Name.dot] := fun same => downward (same ▸ List.mem_cons_self)
      have first : here <+: Location.enter here step := by
        rw [Location.enter, if_neg other]
        split
        · exact List.prefix_append _ _
        · exact List.prefix_refl here
      exact first.trans (ih _ fun present => downward (List.mem_cons_of_mem _ present))
  rintro spot ⟨taken, ⟨later, whole⟩, rfl⟩ first second rest same
  have leads : taken.foldl Location.enter (Location.origin working location) <+: place working
      location := by
    rw [place, ← whole, List.foldl_append]
    exact grows later _ fun present => downward (whole ▸ List.mem_append_right _ present)
  have length := leads.length_le
  rw [same, List.length_append, List.length_cons] at length
  omega

/-- The location starts in a directory of a disk without links. -/
structure Starts (location : Location) (disk : Disk) : Prop where
  linkless : disk.Linkless
  start : disk.thing? (Location.origin disk.working location) = some .directory

/-- All names that are found below a directory are texts. -/
def Legible (disk : Disk) (goal : List Name) : Prop :=
  ∀ rest, disk.thing? (goal ++ rest) ≠ none → ∀ name ∈ rest, name.Textual

/-- Directories in the given one can be published into: no link is on the disk, the way there starts
in a directory and is direct, and what is found in them has names that are texts. -/
structure Ready (directory : Location) (disk : Disk) : Prop extends Starts directory disk where
  direct : Location.Direct disk.working directory
  legible : ∀ name : Name, name.Textual → Legible disk (place disk.working directory ++ [name])

variable {directory : Location} {disk after : Disk} {name other : Name}
  {entries previous : List Entry}
  {changed made : List Name → Prop} {goal : List Name}

theorem Starts.lasts (starts : Starts directory disk) (bounded : Bounded changed made disk after)
    (apart : ¬ changed (Location.origin disk.working directory)) : Starts directory after where
  linkless spot target link := starts.linkless spot target (bounded.links spot target link)
  start := by
    rw [bounded.working]
    exact bounded.directory apart starts.start

/-- What happens below a directory makes no other names. -/
theorem Legible.lasts (legible : Legible disk goal) (bounded : Bounded changed made disk after)
    (clear : ∀ spot, made spot → ∀ name rest, spot ≠ goal ++ name :: rest) :
    Legible after goal := by
  intro rest
  induction rest using List.reverseRecOn with
  | nil => exact fun _ name present => nomatch present
  | append_singleton front last ih =>
    intro there name present
    have above : after.thing? (goal ++ front) = some .directory := by
      refine Item.thing?_prefix (List.cons_ne_nil last []) ?_
      rw [List.append_assoc]
      exact there
    rcases List.mem_append.mp present with early | here
    · exact ih (by simp [above]) name early
    · cases List.mem_singleton.mp here
      rcases bounded.named _ there with before | new | ⟨other, ends, text⟩
      · exact legible _ before last present
      · cases front with
        | nil => exact absurd rfl (clear _ new last [])
        | cons first more => exact absurd (by simp) (clear _ new first (more ++ [last]))
      · rw [← List.append_assoc, List.getLast?_concat] at ends
        cases ends
        exact text

/-- A name that is a text is displayed like no other one. -/
theorem Legible.unmistaken (legible : Legible disk goal) (each : ∀ entry ∈ entries, Plain entry) :
    Unmistaken disk goal entries := by
  intro path name reached other there alike
  obtain ⟨entry, reached'⟩ := Option.ne_none_iff_exists'.mp reached
  have plain := Entry.reached?_mem (fun _ _ _ plain => plain.inside) each reached'
  rw [List.append_assoc] at there
  rw [← Entry.name_of_reached? reached'] at alike ⊢
  exact (legible _ there other (by simp)).eq_of_display plain.name alike

theorem Starts.leads (starts : Starts directory disk)
    (direct : Location.Direct disk.working directory)
    (name : Name) :
    Leads (directory.join name.bytes) (place disk.working directory ++ [name]) disk where
  start := by
    rw [Location.origin_join]
    exact starts.start
  ends := by
    have walks := Walks.of_linkless starts.linkless
      (Location.origin disk.working (directory.join name.bytes))
      (Location.steps (directory.join name.bytes)) []
    rwa [List.append_nil, ← place, Location.place_join] at walks
  clear := by
    rintro spot visits first rest rfl
    have passes := visits.passes starts.linkless
    rw [List.append_assoc, List.singleton_append] at passes
    exact direct _ (Location.passes_of_deeper passes) name first rest rfl
  bare _ _ := starts.linkless _ _

theorem Ready.leads (ready : Ready directory disk) (name : Name) :
    Leads (directory.join name.bytes) (place disk.working directory ++ [name]) disk :=
  ready.toStarts.leads ready.direct name

/-- What a publication into the directory of a name may have done. -/
def Confined (directory : Location) (name : Name) (before after : Disk) : Prop :=
  Bounded (Under (place before.working directory ++ [name]) fun _ => True)
    (Passes before.working (directory.join name.bytes)) before after

theorem Ready.confined (ready : Ready directory disk) (each : ∀ entry ∈ entries, Plain entry) :
    Confined directory name disk
      (afterwards (publish (directory.join name.bytes) previous entries) disk) :=
  (publish_bounded (fun entry present => publishes (each entry present)) (ready.leads name)).mono
    (fun _ => id) (fun _ visits => .inr (visits.passes ready.linkless))
    fun _ visits => .inl (visits.passes ready.linkless)

/-- Outside of the directory nothing changes, apart from directories that are made on the way. -/
theorem Confined.kept (confined : Confined directory name disk after) {spot : List Name}
    (outside : ¬ place disk.working directory ++ [name] <+: spot) :
    after.thing? spot = disk.thing? spot ∨
      Passes disk.working directory spot ∧ disk.thing? spot = none ∧
        after.thing? spot = some .directory := by
  have apart : ¬ Under (place disk.working directory ++ [name]) (fun _ => True) spot := by
    rintro ⟨first, rest, _, rfl⟩
    exact outside (List.prefix_append _ _)
  rcases Bounded.kept confined spot apart with same | ⟨passes, vacant, made⟩
  · exact .inl same
  · rcases Location.passes_join passes with passes | here
    · exact .inr ⟨passes, vacant, made⟩
    · exact absurd (here ▸ List.prefix_refl _) outside

/-- What is made on the way lies inside no other directory. -/
theorem Ready.outside (ready : Ready directory disk) {spot : List Name}
    (passes : Passes disk.working (directory.join name.bytes) spot) (other first : Name)
    (rest : List Name) : spot ≠ place disk.working directory ++ [other] ++ first :: rest := by
  rintro rfl
  rw [List.append_assoc, List.singleton_append] at passes
  exact ready.direct _ (Location.passes_of_deeper passes) other first rest rfl

theorem Ready.lasts (ready : Ready directory disk) (confined : Confined directory name disk after) :
    Ready directory after where
  toStarts := by
    refine ready.toStarts.lasts confined ?_
    rintro ⟨first, rest, _, same⟩
    rw [List.append_assoc, List.singleton_append] at same
    exact ready.direct _ (Location.passes_origin _ _) name first rest same
  direct := by
    rw [Bounded.working confined]
    exact ready.direct
  legible := by
    intro other text
    rw [Bounded.working confined]
    exact (ready.legible other text).lasts confined fun spot passes first rest =>
      ready.outside passes other first rest

/-- What another directory shows stays. -/
theorem Shows.lasts {goal : List Name} (shows : disk.Shows goal entries)
    (ready : Ready directory disk) (there : goal = place disk.working directory ++ [other])
    (confined : Confined directory name disk after)
    (apart : other ≠ name) : after.Shows goal entries := by
  subst there
  intro path
  have outside : ¬ place disk.working directory ++ [name] <+: place disk.working directory ++
      [other] ++ path := by
    rintro ⟨rest, same⟩
    simp only [List.append_assoc, List.singleton_append] at same
    have same' := List.append_cancel_left same
    simp only [List.cons.injEq] at same'
    exact apart same'.1.symm
  rcases confined.kept outside with same | ⟨passes, vacant, made⟩
  · rw [same, shows path]
  · cases path with
    | nil =>
      have directory' := shows []
      rw [vacant] at directory'
      cases directory'
    | cons first rest =>
      rw [List.append_assoc, List.singleton_append] at passes
      exact absurd rfl (ready.direct _ passes other first rest)

/-- A publication that does not end early leaves exactly the entries in its directory. -/
theorem Ready.shows (ready : Ready directory disk) (text : name.Textual)
    (each : ∀ entry ∈ entries, Plain entry) (distinct : (entries.map Entry.name).Nodup)
    (current : Current disk (place disk.working directory ++ [name]) previous entries)
    {written : Nat}
    (done : publish (directory.join name.bytes) previous entries disk = .ok written after) :
    after.Shows (place disk.working directory ++ [name]) entries :=
  publish_shows (fun entry present => publishes (each entry present)) distinct (ready.leads name)
    ((ready.legible name text).unmistaken each) current done

end Depot.Disk

import Depot.Proofs.Disk.Steps

set_option autoImplicit false

namespace Depot.Disk

open Location (origin steps)

variable {location : Location} {goal : List Name} {disk after : Disk}
  {changed made : List Name → Prop}

/-- The way to the location starts in a directory. -/
def Begins (location : Location) (disk : Disk) : Prop :=
  disk.thing? (origin disk.working location) = some .directory

/-- Slashes at the end count for nothing where a directory is to be made. -/
theorem Begins.find_trim (begins : Begins location disk) {through : Bool} {found : Found}
    (there : disk.find through location.trim = .ok found) :
    Ends disk.items through (origin disk.working location) (steps location) found := by
  have same : origin disk.working location.trim = origin disk.working location := by
    rw [origin, origin, (Location.steps_trim location).2]
  have ends := find_ends (same ▸ begins) there
  rwa [same, (Location.steps_trim location).1] at ends

theorem Begins.lasts (begins : Begins location disk)
    (bounded : Bounded (fun _ => False) made disk after) :
    Begins location after := by
  rw [Begins, bounded.working]
  exact bounded.directory id begins

/-- Where only directories are made, all links stay, and with them all ways. -/
theorem Bounded.visits (bounded : Bounded (fun _ => False) made disk after) (location : Location) :
    Visits after location = Visits disk location :=
  visits_congr (bounded.link_iff fun _ => False.elim) bounded.working location

theorem Bounded.walks (bounded : Bounded (fun _ => False) made disk after)
    (ends : Walks disk.items (origin disk.working location) (steps location) goal []) :
    Walks after.items (origin after.working location) (steps location) goal [] := by
  rw [bounded.working]
  exact ends.congr (bounded.link_iff fun _ => False.elim)

/-- Making a directory changes nothing where something stands. -/
theorem makeDirectory_bounded (begins : Begins location disk) :
    Bounded (fun _ => False) (Visits disk location) disk
      (afterwards (makeDirectory location) disk) := by
  refine lookUp_bounded fun found looked => ?_
  cases begins.find_trim looked with
  | link _ _ _ => exact .refl disk
  | there walks stands =>
    cases stands with
    | directory _ => exact .refl disk
    | file _ => exact .refl disk
    | vacant around absent =>
      refine (makeDirectory_bounded_of_vacant around absent).mono (fun _ => id) ?_ ?_
      · rintro spot rfl
        exact .inr ⟨[], walks⟩
      · rintro spot rfl
        exact .inl ⟨[], walks⟩

theorem makeDirectory_done (begins : Begins location disk)
    (ends : Walks disk.items (origin disk.working location) (steps location) goal [])
    (done : makeDirectory location disk = .ok () after) : after.thing? goal = some .directory := by
  obtain ⟨found, looked, finished⟩ := lookUp_done done
  cases begins.find_trim looked with
  | link _ _ _ => cases finished
  | there walks stands =>
    cases ends.ends_inj walks
    cases stands with
    | directory _ => cases finished
    | file _ => cases finished
    | @vacant position name around absent =>
      have within : (Change.directory position name).thing? ≠ none →
          disk.thing? (Change.directory position name).spot.dropLast = some .directory := by
        rw [Change.spot, List.dropLast_concat]
        exact fun _ => around
      have shown := make_done within finished []
      rwa [List.append_nil, if_pos rfl] at shown

/-- Putting up with a directory that is there changes nothing more. -/
theorem afterwards_ensureDirectory (location : Location) (disk : Disk) :
    afterwards (ensureDirectory location) disk = afterwards (makeDirectory location) disk := by
  simp only [afterwards, ensureDirectory]
  cases makeDirectory location disk with
  | ok _ between => rfl
  | error refusal between => by_cases there : between.isDirectory location = true <;> simp [there]

theorem ensureDirectory_bounded (begins : Begins location disk) :
    Bounded (fun _ => False) (Visits disk location) disk
      (afterwards (ensureDirectory location) disk) := by
  rw [afterwards_ensureDirectory]
  exact makeDirectory_bounded begins

theorem ensureDirectory_done (begins : Begins location disk)
    (ends : Walks disk.items (origin disk.working location) (steps location) goal [])
    (done : ensureDirectory location disk = .ok () after) :
    after.thing? goal = some .directory := by
  have bounded := makeDirectory_bounded begins
  unfold ensureDirectory at done
  unfold afterwards at bounded
  cases made : makeDirectory location disk with
  | ok _ between =>
    rw [made] at done
    cases done
    exact makeDirectory_done begins ends made
  | error refusal between =>
    rw [made] at done bounded
    by_cases there : between.isDirectory location = true
    · simp only [there, if_true] at done
      cases done
      refine Finds.isDirectory_at (fun found looked => ?_) there
      cases find_ends (begins.lasts bounded) looked with
      | there walks stands =>
        cases (bounded.walks ends).ends_inj walks
        exact stands
      | link unfollowed _ _ => cases unfollowed
    · simp [there] at done

/-- The ways of the locations are parts of the way of another one. -/
def Around (whole : Location) (locations : List Location) : Prop :=
  ∀ parent ∈ locations, ∀ disk, (Begins whole disk → Begins parent disk) ∧
    ∀ spot, Visits disk parent spot → Visits disk whole spot

theorem ensureDirectory_visits {whole : Location} {locations : List Location}
    (begins : Begins whole disk)
    (around : Around whole locations) (present : location ∈ locations) :
    Bounded (fun _ => False) (Visits disk whole) disk
      (afterwards (ensureDirectory location) disk) := by
  obtain ⟨starts, visits⟩ := around location present disk
  exact (ensureDirectory_bounded (starts begins)).mono (fun _ => id)
    (fun spot visited => .inr (visits spot visited)) fun spot visited => .inl (visits spot visited)

/-- A directory is made at once, or after those around it if it is not found. -/
theorem makeDirectoriesIn_cases (location parent : Location) (parents : List Location)
    (disk : Disk) :
    (∃ between, ensureDirectory location disk = .error .notFound between ∧
        makeDirectoriesIn location (parent :: parents) disk =
          (makeDirectoriesIn parent parents >>= fun _ => ensureDirectory location) between) ∨
      makeDirectoriesIn location (parent :: parents) disk = ensureDirectory location disk := by
  simp only [makeDirectoriesIn]
  cases ensureDirectory location disk with
  | ok _ between => exact .inr rfl
  | error refusal between =>
    cases refusal with
    | notFound => exact .inl ⟨between, rfl, rfl⟩
    | _ => exact .inr rfl

/-- Making the directories around a location, by induction on these. What is made is visited on the
way. -/
theorem makeDirectoriesIn_bounded {whole : Location} {parents : List Location} :
    ∀ {location : Location} {disk : Disk}, Begins whole disk → Around whole (location :: parents) →
      Bounded (fun _ => False) (Visits disk whole) disk
        (afterwards (makeDirectoriesIn location parents) disk) := by
  induction parents with
  | nil =>
    intro location disk begins around
    rw [makeDirectoriesIn]
    split
    · exact .refl disk
    · exact ensureDirectory_visits begins around List.mem_cons_self
  | cons parent parents ih =>
    intro location disk begins around
    have ensured := ensureDirectory_visits begins around List.mem_cons_self
    rcases makeDirectoriesIn_cases location parent parents disk with ⟨between, absent, same⟩ | same
    · rw [afterwards, absent] at ensured
      have begins' := begins.lasts ensured
      have within : Around whole (parent :: parents) :=
        fun other present => around other (List.mem_cons_of_mem _ present)
      have first := ih begins' within
      have more : Bounded (fun _ => False) (Visits between whole) between
          (afterwards (makeDirectoriesIn parent parents >>= fun _ => ensureDirectory location)
            between) := by
        refine .bind first fun _ after done => ?_
        rw [afterwards_of_ok done] at first
        rw [← first.visits]
        exact ensureDirectory_visits (begins'.lasts first) around List.mem_cons_self
      rw [ensured.visits] at more
      rw [afterwards, same, ← afterwards]
      exact ensured.trans more
    · rwa [afterwards, same, ← afterwards]

/-- Once the directories were made, there is one at the location. -/
theorem makeDirectoriesIn_done {whole : Location} {parents : List Location} {location : Location}
    (begins : Begins whole disk) (around : Around whole (location :: parents))
    (ends : Walks disk.items (origin disk.working location) (steps location) goal [])
    (done : makeDirectoriesIn location parents disk = .ok () after) :
    after.thing? goal = some .directory := by
  have begins' := (around location List.mem_cons_self disk).1 begins
  cases parents with
  | nil =>
    rw [makeDirectoriesIn] at done
    split at done
    · next empty =>
      cases done
      subst empty
      cases ends
      exact begins'
    · exact ensureDirectory_done begins' ends done
  | cons parent parents =>
    rcases makeDirectoriesIn_cases location parent parents disk with ⟨between, absent, same⟩ | same
    · have ensured := ensureDirectory_visits begins around List.mem_cons_self
      rw [afterwards, absent] at ensured
      obtain ⟨_, between', inner, finished⟩ := bind_done_iff.mp (same.symm.trans done)
      have within : Around whole (parent :: parents) :=
        fun other present => around other (List.mem_cons_of_mem _ present)
      have first := makeDirectoriesIn_bounded (begins.lasts ensured) within
      rw [afterwards_of_ok inner] at first
      exact ensureDirectory_done ((begins'.lasts ensured).lasts first)
        (first.walks (ensured.walks ends)) finished
    · exact ensureDirectory_done begins' ends (same.symm.trans done)

theorem around_parents (location : Location) : Around location (location :: location.parents) := by
  refine List.forall_mem_cons.mpr ⟨fun _ => ⟨id, fun _ => id⟩, fun parent present disk =>
    ⟨fun begins => ?_, ?_⟩⟩
  · rwa [Begins, (Location.steps_parent disk.working present).1]
  · exact fun spot => visits_parent present

/-- Making directories makes only what is visited on the way. -/
theorem makeDirectories_bounded (begins : Begins location disk) :
    Bounded changed (Visits disk location) disk (afterwards (makeDirectories location) disk) :=
  (makeDirectoriesIn_bounded begins (around_parents location)).widen fun _ => False.elim

theorem makeDirectories_done (begins : Begins location disk)
    (ends : Walks disk.items (origin disk.working location) (steps location) goal [])
    (done : makeDirectories location disk = .ok () after) : after.thing? goal = some .directory :=
  makeDirectoriesIn_done begins (around_parents location) ends done

/-- Listing a directory changes nothing. It ends early where the system refuses it, or where the
location leads to no directory. -/
theorem listDirectory_cases (location : Location) (disk : Disk) :
    ∃ between, Still disk between ∧
      ((∃ refusal, (some refusal ∈ disk.refusals ∨ disk.list location = .error refusal) ∧
          listDirectory location disk = .error refusal between) ∨
        ∃ items, disk.list location = .ok items ∧
          listDirectory location disk = .ok items between) := by
  obtain ⟨between, still, ⟨refusal, refuses, refused⟩ | permitted⟩ := permit_cases disk
  · refine ⟨between, still, .inl ⟨refusal, .inl refuses, ?_⟩⟩
    simp only [listDirectory, bind, EStateM.bind, refused]
  · refine ⟨between, still, ?_⟩
    have got : (get : DiskM Disk) between = .ok between between := rfl
    cases listed : disk.list location with
    | error refusal =>
      refine .inl ⟨refusal, .inr rfl, ?_⟩
      simp only [listDirectory, bind, EStateM.bind, permitted, got, still.list, listed]
      rfl
    | ok items =>
      refine .inr ⟨items, rfl, ?_⟩
      simp only [listDirectory, bind, EStateM.bind, permitted, got, still.list, listed]
      rfl

theorem listDirectory_bounded :
    Bounded changed made disk (afterwards (listDirectory location) disk) := by
  obtain ⟨between, still, ⟨refusal, _, refused⟩ | ⟨items, _, listed⟩⟩ :=
    listDirectory_cases location disk
  · rw [afterwards, refused]
    exact still.bounded
  · rw [afterwards, listed]
    exact still.bounded

/-- A list was found at the location. -/
theorem listDirectory_found {items : List Item}
    (done : listDirectory location disk = .ok items after) :
    ∃ position, disk.find true location = .ok (.directory position) ∧
      items = (Item.inside? disk.items position).getD [] := by
  obtain ⟨between, _, ⟨refusal, _, refused⟩ | ⟨items', there, listed⟩⟩ :=
    listDirectory_cases location disk
  · rw [refused] at done
    cases done
  · rw [listed] at done
    cases done
    obtain ⟨found, looked, result⟩ := bind_ok_iff.mp there
    cases found with
    | directory position =>
      cases result
      exact ⟨position, looked, rfl⟩
    | file _ _ _ => cases result
    | link _ _ => cases result
    | vacant _ _ => cases result

/-- A list tells what stands in the directory. -/
theorem listDirectory_done (leads : Leads location goal disk) {items : List Item}
    (done : listDirectory location disk = .ok items after) (name : Name) :
    (Item.named? items name).map Item.thing = disk.thing? (goal ++ [name]) := by
  obtain ⟨position, looked, rfl⟩ := listDirectory_found done
  have stands := leads.finds _ looked
  cases stands with
  | directory stands =>
    obtain ⟨inner, inside⟩ := Item.thing?_eq_directory.mp stands
    have shown := Item.thing?_last disk.items goal name
    rw [inside, Option.bind_some] at shown
    rw [inside, Option.getD_some, shown, thing?]

end Depot.Disk

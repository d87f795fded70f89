import Depot.Proofs.Disk.Publish
import Depot.Proofs.Disk.Within

set_option autoImplicit false

namespace Depot.Disk

open Entry (Plain shown?)

variable {directory location : Location} {goal : List Name} {disk after : Disk} {entry : Entry}
  {entries previous : List Entry} {written : Nat}

/-- The system takes the locations of the files and directories that an entry is written out as. -/
inductive Fits : Location → Entry → Prop where
  | bytes {directory : Location} {entry : Entry} (written : entry.bytes?.isSome = true)
    (allowed : Allowed (directory.join entry.name.bytes)) : Fits directory entry
  | directory {directory : Location} {name : Name} {children : List Entry} {digest : Digest}
    (allowed : Allowed (directory.join name.bytes))
    (inner : ∀ child ∈ children, Fits (directory.join name.bytes) child) :
    Fits directory (.directory name children digest)

/-- A file is looked up before it is left alone, and before it is written. -/
theorem publishBytes_allowed {previous? : Option Entry} {content : Bytes}
    (done : publishBytes location previous? entry content disk = .ok written after) :
    Allowed location := by
  rw [publishBytes_eq] at done
  by_cases current : isCurrent disk location previous? entry = true
  · rw [isCurrent, Bool.and_eq_true, isFile] at current
    cases found : disk.find true location with
    | error refusal => simp [found] at current
    | ok found' => exact allowed_of_find found
  · rw [if_neg current] at done
    obtain ⟨_, between, _, done⟩ := bind_done_iff.mp done
    obtain ⟨_, full, filled, _⟩ := bind_done_iff.mp done
    obtain ⟨found, looked, _⟩ := lookUp_done (noting_eq_ok.mp filled)
    exact allowed_of_find looked

/-- A directory is listed at the end of a publication. -/
theorem Stages.find {begun full : Disk}
    (stages : Stages location goal previous entries disk begun full after written) :
    full.find true location = .ok (.directory goal) := by
  obtain ⟨items, listed, listing, _⟩ := bind_done_iff.mp stages.removed
  obtain ⟨position, looked, _⟩ := listDirectory_found (noting_eq_ok.mp listing)
  have stands := stages.leads'.finds _ looked
  cases stands with
  | directory _ => exact looked

/-- Entries that were published have locations that the system takes, by induction on the entries.
-/
theorem publishEach_fits (each : ∀ entry ∈ entries, Publishes entry)
    (fits : ∀ entry ∈ entries, ∀ {directory goal disk written after}, Leads directory goal disk →
      publishEntry directory previous entry disk = .ok written after → Fits directory entry) :
    ∀ {disk : Disk} {written : Nat}, Leads directory goal disk →
      publishEach directory previous entries disk = .ok written after →
      ∀ entry ∈ entries, Fits directory entry := by
  induction entries with
  | nil =>
    intro disk written _ _ entry present
    cases present
  | cons first rest ih =>
    intro disk written leads done
    obtain ⟨between, count, more, turns, rfl⟩ := publishEach_turns each leads done
    refine List.forall_mem_cons.mpr ⟨fits first List.mem_cons_self leads turns.first, ?_⟩
    exact ih (fun other held => each other (List.mem_cons_of_mem _ held))
      (fun other held => fits other (List.mem_cons_of_mem _ held)) turns.leads turns.later

/-- The same for one entry, by induction on it. -/
theorem publishEntry_fits (plain : Plain entry) :
    ∀ {previous directory goal disk written after}, Leads directory goal disk →
      publishEntry directory previous entry disk = .ok written after → Fits directory entry := by
  induction plain with
  | file text content stamp digest =>
    intro previous directory goal disk written after _ done
    rw [publishEntry, publishedName_of_textual text] at done
    exact .bytes rfl (publishBytes_allowed done)
  | archive text members bytes digest =>
    intro previous directory goal disk written after _ done
    rw [publishEntry, publishedName_of_textual text] at done
    exact .bytes rfl (publishBytes_allowed done)
  | @directory name text children distinct inner digest ih =>
    intro previous directory goal disk written after leads done
    rw [publishEntry_directory, publishedName_of_textual text] at done
    obtain ⟨_, between, cleared, done⟩ := bind_done_iff.mp done
    have bounded := @clearFile_bounded directory goal disk (fun _ => False) leads name
    rw [afterwards_of_ok cleared] at bounded
    have each : ∀ child ∈ children, Publishes child := fun child present =>
      publishes (inner child present)
    obtain ⟨begun, full, stages⟩ := publish_stages each ((leads.lasts_under bounded).join name) done
    exact .directory (allowed_of_find stages.find)
      (publishEach_fits each (fun child present => ih child present) stages.leads stages.filled)

/-- How steps end that change nothing. -/
inductive Rests {ε α : Type} (value : α) (disk : Disk) : EStateM.Result ε Disk α → Prop where
  | done {after : Disk} (still : Still disk after) : Rests value disk (.ok value after)
  | refused {fault : ε} {after : Disk} (still : Still disk after) {refusal : Refusal}
    (refuses : some refusal ∈ disk.refusals) : Rests value disk (.error fault after)

theorem Rests.bind {ε α β : Type} {value : α} {result : β} {first : EStateM ε Disk α}
    {next : α → EStateM ε Disk β} (here : Rests value disk (first disk))
    (there : ∀ between, Still disk between → Rests result between (next value between)) :
    Rests result disk ((first >>= next) disk) := by
  show Rests result disk (EStateM.bind first next disk)
  unfold EStateM.bind
  generalize first disk = outcome at here
  cases here with
  | refused still refuses => exact .refused still refuses
  | @done between still =>
    have later := there between still
    dsimp only
    generalize next value between = outcome at later
    cases later with
    | done still' => exact .done (still.trans still')
    | refused still' refuses => exact .refused (still.trans still') (still.refusals.subset refuses)

theorem Rests.noting {α : Type} {value : α} {steps : DiskM α}
    (rests : Rests value disk (steps disk)) :
    Rests value disk (noting location steps disk) := by
  unfold Disk.noting
  generalize steps disk = outcome at rests
  cases rests with
  | done still => exact .done still
  | refused still refuses => exact .refused still refuses

/-- The location leads to a directory, which is found. -/
structure Opens (location : Location) (goal : List Name) (disk : Disk) :
    Prop extends Leads location goal disk where
  found : disk.find true location = .ok (.directory goal)

theorem Opens.lasts (opens : Opens location goal disk) (still : Still disk after) :
    Opens location goal after where
  toLeads := opens.toLeads.lasts (@Still.bounded (fun _ => False) (fun _ => False) _ _ still)
    fun _ => False.elim
  found := by
    rw [still.find]
    exact opens.found

theorem Opens.join (opens : Opens directory goal disk) {name : Name}
    (allowed : Allowed (directory.join name.bytes))
    (stands : disk.thing? (goal ++ [name]) = some .directory) :
    Opens (directory.join name.bytes) (goal ++ [name]) disk where
  toLeads := opens.toLeads.join name
  found := find_directory_in opens.found allowed stands true

theorem Opens.stands (opens : Opens location goal disk) : disk.thing? goal = some .directory := by
  have stands := opens.finds _ opens.found
  cases stands with
  | directory there => exact there

theorem lookUp_bind {α : Type} (through : Bool) (location : Location) (next : Found → DiskM α)
    (disk : Disk) :
    (lookUp through location >>= next) disk =
      match disk.find through location with
      | .ok found => next found disk
      | .error refusal => .error refusal disk := by
  show EStateM.bind (lookUp through location) next disk = _
  rw [EStateM.bind, lookUp_eq]
  cases disk.find through location <;> rfl

/-- Making a directory that is there comes to nothing. -/
theorem makeDirectory_opens (opens : Opens location goal disk) :
    ∃ refusal, makeDirectory location disk = .error refusal disk := by
  rw [makeDirectory, lookUp_bind]
  cases looked : disk.find false location.trim with
  | error refusal => exact ⟨refusal, rfl⟩
  | ok found =>
    cases Begins.find_trim opens.start looked with
    | link _ _ _ => exact ⟨.alreadyExists, rfl⟩
    | there walks stands =>
      cases opens.ends.ends_inj walks
      have here := opens.stands
      rw [thing?] at here
      cases stands with
      | directory _ => exact ⟨.alreadyExists, rfl⟩
      | file _ => exact ⟨.alreadyExists, rfl⟩
      | vacant _ absent =>
        rw [absent] at here
        cases here

theorem makeDirectories_opens (opens : Opens location goal disk) :
    makeDirectories location disk = .ok () disk := by
  have there : disk.isDirectory location = true := by rw [isDirectory, opens.found]
  have ensured : ensureDirectory location disk = .ok () disk := by
    obtain ⟨refusal, refused⟩ := makeDirectory_opens opens
    rw [ensureDirectory, refused]
    exact if_pos there
  rw [makeDirectories]
  cases location.parents with
  | nil => rw [makeDirectoriesIn, if_neg (allowed_of_find opens.found).filled, ensured]
  | cons parent parents => simp only [makeDirectoriesIn, ensured]

theorem list_opens (opens : Opens location goal disk) :
    disk.list location = .ok ((Item.inside? disk.items goal).getD []) := by
  rw [list, opens.found]
  rfl

theorem listDirectory_rests (opens : Opens location goal disk) :
    Rests ((Item.inside? disk.items goal).getD []) disk (listDirectory location disk) := by
  obtain ⟨between, still, ⟨refusal, refuses | missing, refused⟩ | ⟨items, there, listed⟩⟩ :=
    listDirectory_cases location disk
  · rw [refused]
    exact .refused still refuses
  · cases (list_opens opens).symm.trans missing
  · cases (list_opens opens).symm.trans there
    rw [listed]
    exact .done still

/-- Items that are all wanted stay. -/
theorem removeUnwanted_wanted {wanted : List String} {items : List Item}
    (each : ∀ item ∈ items, item.name.display ∈ wanted) :
    removeUnwanted location wanted items = pure () := by
  induction items with
  | nil => rfl
  | cons item rest ih =>
    obtain ⟨here, later⟩ := List.forall_mem_cons.mp each
    rw [removeUnwanted_cons, ih later, removeIfUnwanted, if_pos (by simpa using here)]
    rfl

/-- A directory that holds exactly the entries holds nothing that is left over. -/
theorem wanted_of_shows (opens : Opens location goal disk) (shows : Shows disk goal entries) :
    ∀ item ∈ (Item.inside? disk.items goal).getD [], item.name.display ∈ displayed entries := by
  intro item present
  obtain ⟨inner, inside⟩ := Item.thing?_eq_directory.mp opens.stands
  rw [inside, Option.getD_some] at present
  have named : (Item.named? inner item.name).isSome = true := by
    rw [Item.named?, List.find?_isSome]
    exact ⟨item, present, by simp⟩
  have shown := shows [item.name]
  rw [thing?, ← Item.thing?_last, inside, Option.bind_some] at shown
  by_contra other
  have absent : item.name ∉ entries.map Entry.name := by
    rintro held
    obtain ⟨entry, among, same⟩ := List.mem_map.mp held
    exact other (List.mem_map.mpr ⟨entry, among, by rw [same]⟩)
  rw [Entry.shown?_absent absent, Option.map_eq_none_iff] at shown
  simp [shown] at named

theorem Shows.lasts_still (shows : Shows disk goal entries) (still : Still disk after) :
    Shows after goal entries :=
  fun path => (still.thing? _).trans (shows path)

theorem removeOthers_rests (opens : Opens location goal disk) (shows : Shows disk goal entries) :
    Rests () disk (removeOthers location entries disk) := by
  refine .bind (listDirectory_rests opens).noting fun between still => ?_
  have wanted := wanted_of_shows opens shows
  have nothing : removeUnwanted location (displayed entries)
      ((Item.inside? disk.items goal).getD []) = pure () :=
    removeUnwanted_wanted wanted
  rw [← displayed, nothing]
  exact .done (.refl between)

/-- Publishing comes to nothing if filling the directory does. -/
theorem publish_rests_of_each (opens : Opens location goal disk) (shows : Shows disk goal entries)
    (filled : ∀ between, Still disk between →
      Rests 0 between (publishEach location previous entries between)) :
    Rests 0 disk (publish location previous entries disk) := by
  have made : Rests () disk (noting location (makeDirectories location) disk) := by
    rw [noting_eq_ok.mpr (makeDirectories_opens opens)]
    exact .done (.refl disk)
  refine .bind made fun begun still => .bind (filled begun still) fun full still' => ?_
  have same := still.trans still'
  exact .bind (removeOthers_rests (opens.lasts same) (shows.lasts_still same))
    fun last _ => .done (.refl last)

/-- An entry that was published, and is there, is not published again. -/
def Resumes (entry : Entry) : Prop :=
  ∀ {directory goal disk previous}, Opens directory goal disk → Fits directory entry →
    Entry.lastNamed? previous entry.name = some entry →
    (∀ rest, disk.thing? (goal ++ entry.name :: rest) = shown? [entry] (entry.name :: rest)) →
    Rests 0 disk (publishEntry directory previous entry disk)

theorem resumes_of_bytes (text : entry.name.Textual) {content : Bytes}
    (written : entry.bytes? = some content)
    (unfolds : ∀ directory previous, publishEntry directory previous entry =
      publishBytes (directory.join (publishedName entry.name))
        (Entry.lastNamed? previous entry.name)
        entry content) : Resumes entry := by
  intro directory goal disk previous opens fits known shown
  have allowed : Allowed (directory.join entry.name.bytes) := by
    cases fits with
    | bytes _ allowed => exact allowed
    | directory _ _ => cases written
  have stands := shown []
  rw [Entry.shown?_bytes written, if_pos rfl] at stands
  have current : isCurrent disk (directory.join entry.name.bytes) (some entry) entry = true := by
    simp [isCurrent, written, isFile_in opens.found allowed stands]
  rw [unfolds, publishedName_of_textual text, known, publishBytes_eq, if_pos current]
  exact .done (.refl disk)

theorem publishEach_rests (each : ∀ entry ∈ entries, Resumes entry) :
    ∀ {disk : Disk}, Opens directory goal disk → (∀ entry ∈ entries, Fits directory entry) →
      (∀ entry ∈ entries, Entry.lastNamed? previous entry.name = some entry) →
      (∀ entry ∈ entries, ∀ rest,
        disk.thing? (goal ++ entry.name :: rest) = shown? [entry] (entry.name :: rest)) →
      Rests 0 disk (publishEach directory previous entries disk) := by
  induction entries with
  | nil => exact fun {disk} _ _ _ _ => .done (.refl disk)
  | cons entry rest ih =>
    intro disk opens fits known shown
    rw [publishEach]
    refine .bind (each entry List.mem_cons_self opens (fits entry List.mem_cons_self)
      (known entry List.mem_cons_self) (shown entry List.mem_cons_self)) fun between still => ?_
    refine .bind (ih (fun other held => each other (List.mem_cons_of_mem _ held))
      (opens.lasts still)
      (fun other held => fits other (List.mem_cons_of_mem _ held))
      (fun other held => known other (List.mem_cons_of_mem _ held)) fun other held path => ?_)
      fun last _ => .done (.refl last)
    rw [still.thing?]
    exact shown other (List.mem_cons_of_mem _ held) path

/-- Publishing entries once more comes to nothing where the directory holds exactly them. -/
theorem publish_rests (each : ∀ entry ∈ entries, Resumes entry)
    (distinct : (entries.map Entry.name).Nodup)
    (opens : Opens location goal disk) (fits : ∀ entry ∈ entries, Fits location entry)
    (shows : Shows disk goal entries) : Rests 0 disk (publish location entries entries disk) := by
  refine publish_rests_of_each opens shows fun between still => ?_
  refine publishEach_rests each (opens.lasts still) fits (fun entry present => ?_)
    fun entry present rest => ?_
  · rw [Entry.lastNamed?_eq distinct, Entry.named?_of_mem distinct present]
  · rw [still.thing?, shows, Entry.shown?_alone distinct present]

theorem resumes_directory {name : Name} {children : List Entry} {digest : Digest}
    (plain : Plain (.directory name children digest)) (each : ∀ child ∈ children, Resumes child) :
    Resumes (.directory name children digest) := by
  intro directory goal disk previous opens fits known shown
  have text : name.Textual := plain.name
  obtain ⟨allowed, inner⟩ : Allowed (directory.join name.bytes) ∧
      ∀ child ∈ children, Fits (directory.join name.bytes) child := by
    cases fits with
    | bytes written _ => cases written
    | directory allowed inner => exact ⟨allowed, inner⟩
  have shows : Shows disk (goal ++ [name]) children := fun path => by
    rw [← Entry.shown?_inside name children digest, ← List.append_cons]
    exact shown path
  have stands : disk.thing? (goal ++ [name]) = some .directory := by
    simpa [Entry.shown?] using shows []
  have known' : published (Entry.lastNamed? previous name) = children := by
    have same : Entry.lastNamed? previous name = some (.directory name children digest) := known
    rw [same, published]
  have opens' := opens.join allowed stands
  have nothing : ¬ disk.isFile (directory.join name.bytes) = true := by
    rw [isFile, opens'.found]
    exact Bool.false_ne_true
  rw [publishEntry_directory, publishedName_of_textual text, known', clearFile, if_neg nothing]
  exact publish_rests each plain.distinct opens' inner shows

/-- What was published as it is stays as it is, by induction on the entry. -/
theorem resumes (plain : Plain entry) : Resumes entry := by
  induction plain with
  | file text content stamp digest =>
    exact @resumes_of_bytes (.file _ content stamp digest) text content rfl
      fun _ _ => by rw [publishEntry, Entry.name]
  | archive text members bytes digest =>
    exact @resumes_of_bytes (.archive _ members bytes digest) text bytes rfl
      fun _ _ => by rw [publishEntry, Entry.name]
  | directory text distinct inner digest ih =>
    exact resumes_directory (.directory text distinct inner digest) ih

end Depot.Disk

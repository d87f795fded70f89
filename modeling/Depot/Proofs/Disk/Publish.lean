import Depot.Proofs.Disk.Shown
import Depot.Proofs.Disk.Directories
import Mathlib.Data.List.Induction

set_option autoImplicit false

namespace Depot.Disk

open Entry (Plain shown?)

variable {directory location : Location} {goal : List Name} {disk after : Disk} {entry : Entry}
  {entries previous : List Entry} {made : List Name → Prop}

theorem afterwards_noting (location : Location) {α : Type} (steps : DiskM α) (disk : Disk) :
    afterwards (noting location steps) disk = afterwards steps disk := by
  simp only [afterwards, noting]
  cases steps disk <;> rfl

theorem noting_eq_ok {α : Type} {steps : DiskM α} {value : α} :
    noting location steps disk = .ok value after ↔ steps disk = .ok value after := by
  simp only [noting]
  cases steps disk <;> simp

theorem get_bind {α : Type} (next : Disk → PublishM α) (disk : Disk) :
    (get >>= next) disk = next disk disk :=
  rfl

theorem publishedName_of_textual {name : Name} (text : name.Textual) :
    publishedName name = name.bytes :=
  text

def Under (goal : List Name) (names : Name → Prop) (spot : List Name) : Prop :=
  ∃ name rest, names name ∧ spot = goal ++ name :: rest

theorem under_prefix {name : Name} {spot : List Name} (leads : goal ++ [name] <+: spot)
    {names : Name → Prop} (named : names name) : Under goal names spot := by
  obtain ⟨rest, rfl⟩ := leads
  exact ⟨name, rest, named, by simp⟩

theorem Under.mono {names names' : Name → Prop} {spot : List Name} (under : Under goal names spot)
    (more : ∀ name, names name → names' name) : Under goal names' spot := by
  obtain ⟨name, rest, named, same⟩ := under
  exact ⟨name, rest, more name named, same⟩

theorem not_under {names : Name → Prop} {name : Name} (other : ¬ names name) (rest : List Name) :
    ¬ Under goal names (goal ++ name :: rest) := by
  rintro ⟨name', rest', named, same⟩
  cases List.append_cancel_left same
  exact other named

/-- The location still leads there after something changed below. -/
theorem Leads.lasts_under (leads : Leads location goal disk) {names : Name → Prop}
    (bounded : Bounded (Under goal names) made disk after) : Leads location goal after :=
  leads.lasts bounded fun _ under => by
    obtain ⟨name, rest, _, same⟩ := under
    exact ⟨name, rest, same⟩

/-- The way to a location visits nothing below its goal, so that nothing is made there on the way.
-/
theorem Leads.unmoved {changed : List Name → Prop} (leads : Leads location goal disk)
    (bounded : Bounded changed (Visits disk location) disk after) {name : Name}
    {rest : List Name} (apart : ¬ changed (goal ++ name :: rest)) :
    after.thing? (goal ++ name :: rest) = disk.thing? (goal ++ name :: rest) := by
  rcases bounded.kept _ apart with same | ⟨visits, _⟩
  · exact same
  · exact absurd rfl (leads.clear _ visits name rest)

theorem Leads.visits_under (leads : Leads location goal disk) {names : Name → Prop}
    (bounded : Bounded (Under goal names) made disk after) :
    Visits after location = Visits disk location :=
  leads.visits bounded fun _ under => by
    obtain ⟨name, rest, _, same⟩ := under
    exact ⟨name, rest, same⟩

/-- What stands where an entry belongs and is displayed like the entry has its name. -/
def Unmistaken (disk : Disk) (goal : List Name) (entries : List Entry) : Prop :=
  ∀ path name, Entry.reached? entries (path ++ [name]) ≠ none → ∀ other : Name,
    disk.thing? (goal ++ path ++ [other]) ≠ none → other.display = name.display → other = name

theorem Unmistaken.alone (unmistaken : Unmistaken disk goal entries)
    (distinct : (entries.map Entry.name).Nodup) (present : entry ∈ entries) :
    Unmistaken disk goal [entry] := by
  intro path name reached
  obtain ⟨entry', reached'⟩ := Option.ne_none_iff_exists'.mp reached
  obtain ⟨rest, whole⟩ := Entry.reached?_only reached'
  rw [whole, ← Entry.reached?_alone distinct present, ← whole] at reached
  exact unmistaken path name reached

theorem Unmistaken.inside {name : Name} {children : List Entry} {digest : Digest}
    (unmistaken : Unmistaken disk goal [.directory name children digest]) :
    Unmistaken disk (goal ++ [name]) children := by
  intro path last reached other there
  refine unmistaken (name :: path) last ?_ other (by simpa using there)
  rwa [List.cons_append, Entry.reached?_inside name children digest (by simp)]

/-- Everything new below the place has a name that is a text, like the entries. -/
theorem Unmistaken.lasts {changed : List Name → Prop} (unmistaken : Unmistaken disk goal entries)
    (bounded : Bounded changed made disk after)
    (clear : ∀ spot, made spot → ∀ name rest, spot ≠ goal ++ name :: rest)
    (each : ∀ entry ∈ entries, Plain entry) : Unmistaken after goal entries := by
  intro path name reached other there alike
  rcases bounded.named _ there with before | new | ⟨last, ends, text⟩
  · exact unmistaken path name reached other before alike
  · cases path with
    | nil => exact absurd (by simp) (clear _ new other [])
    | cons first rest => exact absurd (by simp) (clear _ new first (rest ++ [other]))
  · rw [List.getLast?_concat] at ends
    cases ends
    obtain ⟨entry, reached'⟩ := Option.ne_none_iff_exists'.mp reached
    have named := Entry.reached?_mem (fun _ _ _ plain => plain.inside) each reached'
    rw [← Entry.name_of_reached? reached'] at alike ⊢
    exact text.eq_of_display named.name alike

/-- Removes a directory that stands where a file is to be written. -/
def makeWay (location : Location) (disk : Disk) : PublishM Unit :=
  if disk.isDirectory location then noting location (removeTree location) else pure ()

theorem publishBytes_eq (location : Location) (previous? : Option Entry) (entry : Entry)
    (content : Bytes) (disk : Disk) :
    publishBytes location previous? entry content disk =
      if isCurrent disk location previous? entry then .ok 0 disk
      else
        (do
          makeWay location disk
          noting location (writeFile location content)
          return 1 : PublishM Nat) disk := by
  rw [publishBytes, get_bind]
  by_cases current : isCurrent disk location previous? entry = true
  · rw [if_pos current, if_pos current]
    rfl
  · rw [if_neg current, if_neg current, get_bind, makeWay]
    by_cases there : disk.isDirectory location = true
    · rw [if_pos there, if_pos there]
    · rw [if_neg there, if_neg there]
      rfl

section Files

variable {name : Name} {previous? : Option Entry} {content : Bytes}

theorem makeWay_bounded (leads : Leads directory goal disk) (name : Name) :
    Bounded (Under goal (· = name)) made disk
      (afterwards (makeWay (directory.join name.bytes) disk) disk) := by
  unfold makeWay
  split
  · rw [afterwards_noting]
    exact (removeTree_bounded (leads.finds_in name false)).widen fun spot leads =>
      under_prefix leads rfl
  · exact .refl disk

/-- Publishing a file changes nothing but what stands at its place. -/
theorem publishBytes_bounded (leads : Leads directory goal disk) (text : name.Textual) :
    Bounded (Under goal (· = name)) made disk
      (afterwards (publishBytes (directory.join name.bytes) previous? entry content) disk) := by
  rw [afterwards, publishBytes_eq]
  by_cases current : isCurrent disk (directory.join name.bytes) previous? entry = true
  · rw [if_pos current]
    exact .refl disk
  · have cleared := @makeWay_bounded directory goal disk made leads name
    rw [if_neg current]
    refine .bind cleared fun _ between done => ?_
    rw [afterwards_of_ok done] at cleared
    refine .bind ?_ fun _ between' _ => .refl between'
    rw [afterwards_noting]
    exact (writeFile_bounded ((leads.lasts_under cleared).finds_in name true) text content).widen
      fun spot leads => under_prefix leads rfl

/-- After a file was published it is all that stands at its place, if it was the right one already
where it is not written again. -/
theorem publishBytes_done (leads : Leads directory goal disk) (text : name.Textual)
    (right : isCurrent disk (directory.join name.bytes) previous? entry = true →
      ∀ content', disk.thing? (goal ++ [name]) = some (.file content') → content' = content)
    {written : Nat}
    (done : publishBytes (directory.join name.bytes) previous? entry content disk =
      .ok written after)
    (rest : List Name) :
    after.thing? (goal ++ [name] ++ rest) = if rest = [] then some (.file content) else none := by
  rw [publishBytes_eq] at done
  split at done
  · next current =>
    cases done
    have there : disk.isFile (directory.join name.bytes) = true := by
      simp only [isCurrent, Bool.and_eq_true] at current
      exact current.2
    obtain ⟨content', stands⟩ := (leads.finds_in name true).isFile_at there
    by_cases last : rest = []
    · rw [last, List.append_nil, if_pos rfl, stands, right current content' stands]
    · rw [if_neg last]
      by_contra below
      have above := Item.thing?_prefix last below
      rw [thing?, above] at stands
      cases stands
  · obtain ⟨_, between, cleared, done⟩ := bind_done_iff.mp done
    obtain ⟨_, between', filled, done⟩ := bind_done_iff.mp done
    cases done
    have bounded := @makeWay_bounded directory goal disk (fun _ => False) leads name
    rw [afterwards_of_ok cleared] at bounded
    exact writeFile_done ((leads.lasts_under bounded).finds_in name true) text
      (noting_eq_ok.mp filled) rest

end Files

section Leftovers

variable {wanted : List String}

def removeIfUnwanted (directory : Location) (wanted : List String) (item : Item) : PublishM Unit :=
  let location := directory.join item.name.bytes
  if wanted.contains item.name.display then pure ()
  else if item.isDirectory then noting location (removeTree location)
  else noting location (removeFile location)

theorem removeUnwanted_cons (directory : Location) (wanted : List String) (item : Item)
    (rest : List Item) :
    removeUnwanted directory wanted (item :: rest) =
      removeIfUnwanted directory wanted item >>= fun _ => removeUnwanted directory wanted rest := by
  rw [removeUnwanted, removeIfUnwanted]
  cases wanted.contains item.name.display <;> cases item.isDirectory <;> rfl

theorem removeIfUnwanted_bounded (leads : Leads directory goal disk) (item : Item) :
    Bounded (Under goal fun name => name = item.name ∧ name.display ∉ wanted) made disk
      (afterwards (removeIfUnwanted directory wanted item) disk) := by
  unfold removeIfUnwanted
  by_cases kept : wanted.contains item.name.display = true
  · rw [if_pos kept]
    exact .refl disk
  · have under : ∀ spot, goal ++ [item.name] <+: spot →
        Under goal (fun name => name = item.name ∧ name.display ∉ wanted) spot :=
      fun spot leads => under_prefix leads ⟨rfl, by simpa using kept⟩
    rw [if_neg kept]
    split
    · rw [afterwards_noting]
      exact (removeTree_bounded (leads.finds_in item.name false)).widen under
    · rw [afterwards_noting]
      exact (removeFile_bounded (leads.finds_in item.name false)).widen under

theorem removeIfUnwanted_done (leads : Leads directory goal disk) {item : Item}
    (unwanted : item.name.display ∉ wanted)
    (done : removeIfUnwanted directory wanted item disk = .ok () after)
    (rest : List Name) : after.thing? (goal ++ item.name :: rest) = none := by
  rw [removeIfUnwanted, if_neg (by simpa using unwanted)] at done
  rw [List.append_cons]
  split at done
  · exact removeTree_done (leads.finds_in item.name false) (noting_eq_ok.mp done) rest
  · exact removeFile_done (leads.finds_in item.name false) (noting_eq_ok.mp done) rest

/-- Removing leftovers changes nothing but what stands under their names. -/
theorem removeUnwanted_bounded (items : List Item) : ∀ {disk : Disk}, Leads directory goal disk →
    Bounded (Under goal fun name => name ∈ items.map Item.name ∧ name.display ∉ wanted) made disk
      (afterwards (removeUnwanted directory wanted items) disk) := by
  induction items with
  | nil => exact fun {disk} _ => .refl disk
  | cons item rest ih =>
    intro disk leads
    have first := @removeIfUnwanted_bounded directory goal disk made wanted leads item
    rw [removeUnwanted_cons]
    refine .bind (first.widen fun spot under => ?_) fun _ between done => ?_
    · exact under.mono fun name ⟨same, gone⟩ => ⟨by simp [same], gone⟩
    · rw [afterwards_of_ok done] at first
      refine (ih (leads.lasts_under first)).widen fun spot under => ?_
      exact under.mono fun name ⟨later, gone⟩ => ⟨List.mem_cons_of_mem _ later, gone⟩

/-- Afterwards nothing stands under the names of leftovers, by induction on the items. One that was
removed does not come back, whether another one has its name or not. -/
theorem removeUnwanted_done (items : List Item) : ∀ {disk : Disk}, Leads directory goal disk →
    removeUnwanted directory wanted items disk = .ok () after →
    ∀ name ∈ items.map Item.name, name.display ∉ wanted →
      ∀ rest, after.thing? (goal ++ name :: rest) = none := by
  induction items with
  | nil => exact fun _ _ name present => nomatch present
  | cons item others ih =>
    intro disk leads done name present unwanted rest
    rw [removeUnwanted_cons] at done
    obtain ⟨_, between, removedFirst, done⟩ := bind_done_iff.mp done
    have first := @removeIfUnwanted_bounded directory goal disk (fun _ => False) wanted leads item
    rw [afterwards_of_ok removedFirst] at first
    have leads' := leads.lasts_under first
    by_cases later : name ∈ others.map Item.name
    · exact ih leads' done name later unwanted rest
    · obtain rfl : name = item.name := by simpa [later] using present
      have more := @removeUnwanted_bounded directory goal (fun _ => False) wanted others _ leads'
      rw [afterwards_of_ok done] at more
      rcases more.kept _ (not_under (fun ⟨among, _⟩ => later among) rest) with same | ⟨new, _⟩
      · rw [same]
        exact removeIfUnwanted_done leads unwanted removedFirst rest
      · exact new.elim

/-- The names of some entries, as they are compared with those of leftovers. -/
def displayed (entries : List Entry) : List String :=
  entries.map fun entry => entry.name.display

theorem removeOthers_bounded (leads : Leads directory goal disk) (entries : List Entry) :
    Bounded (Under goal fun name => name.display ∉ displayed entries) made disk
      (afterwards (removeOthers directory entries) disk) := by
  have listing := @listDirectory_bounded directory disk (Under goal fun _ => True) made
  refine .bind ?_ fun items between done => ?_
  · rw [afterwards_noting]
    exact listDirectory_bounded
  · rw [noting_eq_ok] at done
    rw [afterwards_of_ok done] at listing
    refine (removeUnwanted_bounded items (leads.lasts_under listing)).widen fun spot under => ?_
    exact under.mono fun name ⟨_, gone⟩ => gone

/-- Only names that are displayed like those of the entries are left. -/
theorem removeOthers_done (leads : Leads directory goal disk)
    (done : removeOthers directory entries disk = .ok () after) {name : Name}
    (unwanted : name.display ∉ displayed entries) (rest : List Name) :
    after.thing? (goal ++ name :: rest) = none := by
  obtain ⟨items, between, listed, removed⟩ := bind_done_iff.mp done
  rw [noting_eq_ok] at listed
  have same := @listDirectory_bounded directory disk (Under goal fun _ => False) (fun _ => False)
  rw [afterwards_of_ok listed] at same
  have leads' := leads.lasts_under same
  have told := listDirectory_done leads listed name
  by_cases present : name ∈ items.map Item.name
  · exact removeUnwanted_done items leads' removed name present unwanted rest
  · have nothing : Item.named? items name = none := by
      refine List.find?_eq_none.mpr fun item held => ?_
      simpa using fun same : item.name = name => present (same ▸ List.mem_map_of_mem held)
    have absent : disk.thing? (goal ++ name :: rest) = none := by
      rw [nothing, Option.map_none] at told
      by_cases last : rest = []
      · rw [last, ← told]
      · by_contra there
        rw [List.append_cons] at there
        have above := Item.thing?_prefix last there
        rw [thing?, above] at told
        cases told
    have more := @removeUnwanted_bounded directory goal (fun _ => False) (displayed entries)
      items _ leads'
    have removed' : removeUnwanted directory (displayed entries) items between = .ok () after :=
      removed
    rw [afterwards_of_ok removed'] at more
    rcases more.kept _ (not_under (fun named => present named.1) rest) with unmoved | ⟨new, _⟩
    · rcases same.kept _ (not_under id rest) with unmoved' | ⟨new, _⟩
      · rw [unmoved, unmoved', absent]
      · exact new.elim
    · exact new.elim

end Leftovers

/-- What publishing an entry does: it changes nothing but what stands at the place of the entry, and
shows the entry there if it does not end early. -/
structure Publishes (entry : Entry) : Prop where
  plain : Plain entry
  bounded : ∀ {directory goal disk previous}, Leads directory goal disk →
    Bounded (Under goal (· = entry.name)) (Visits disk directory) disk
      (afterwards (publishEntry directory previous entry) disk)
  shown : ∀ {directory goal disk previous written after}, Leads directory goal disk →
    Unmistaken disk goal [entry] → Current disk goal previous [entry] →
    publishEntry directory previous entry disk = .ok written after →
    ∀ rest, after.thing? (goal ++ entry.name :: rest) = shown? [entry] (entry.name :: rest)

theorem publishEach_bounded (each : ∀ entry ∈ entries, Publishes entry) :
    ∀ {disk : Disk}, Leads directory goal disk →
      Bounded (Under goal (· ∈ entries.map Entry.name)) (Visits disk directory) disk
        (afterwards (publishEach directory previous entries) disk) := by
  induction entries with
  | nil => exact fun {disk} _ => .refl disk
  | cons entry rest ih =>
    intro disk leads
    have first := @(each entry List.mem_cons_self).bounded directory goal disk previous leads
    rw [publishEach]
    refine .bind (first.widen fun spot under => ?_) fun _ between done => ?_
    · exact under.mono fun name same => by simp [same]
    · rw [afterwards_of_ok done] at first
      refine .bind ?_ fun _ last _ => .refl last
      have later := ih (fun other present => each other (List.mem_cons_of_mem _ present))
        (leads.lasts_under first)
      rw [leads.visits_under first] at later
      exact later.widen fun spot under => under.mono fun name among => List.mem_cons_of_mem _ among

/-- What the first of some entries does to the disk, and what the others do after it. -/
structure Turns (directory : Location) (goal : List Name) (previous : List Entry) (entry : Entry)
    (rest : List Entry) (disk between after : Disk) (count more : Nat) : Prop where
  first : publishEntry directory previous entry disk = .ok count between
  changes : Bounded (Under goal (· = entry.name)) (Visits disk directory) disk between
  leads : Leads directory goal between
  later : publishEach directory previous rest between = .ok more after
  follows : Bounded (Under goal (· ∈ rest.map Entry.name)) (Visits between directory) between after

theorem publishEach_turns {rest : List Entry} (each : ∀ other ∈ entry :: rest, Publishes other)
    (leads : Leads directory goal disk) {written : Nat}
    (done : publishEach directory previous (entry :: rest) disk = .ok written after) :
    ∃ between count more, Turns directory goal previous entry rest disk between after count more ∧
      written = count + more := by
  rw [publishEach] at done
  obtain ⟨count, between, first, done⟩ := bind_done_iff.mp done
  obtain ⟨more, last, later, done⟩ := bind_done_iff.mp done
  cases done
  have changes := @(each entry List.mem_cons_self).bounded directory goal disk previous leads
  rw [afterwards_of_ok first] at changes
  have leads' := leads.lasts_under changes
  have follows := @publishEach_bounded directory goal rest previous
    (fun other present => each other (List.mem_cons_of_mem _ present)) between leads'
  rw [afterwards_of_ok later] at follows
  exact ⟨between, count, more, ⟨first, changes, leads', later, follows⟩, rfl⟩

/-- The others leave alone what the first one published. -/
theorem Turns.unmoved {rest : List Entry} {between : Disk} {count more : Nat}
    (turns : Turns directory goal previous entry rest disk between after count more)
    (fresh : entry.name ∉ rest.map Entry.name) (path : List Name) :
    after.thing? (goal ++ entry.name :: path) = between.thing? (goal ++ entry.name :: path) :=
  turns.leads.unmoved turns.follows (not_under fresh path)

/-- Where nothing changes that the entries name, files that are right stay right. -/
theorem Current.lasts {changed : List Name → Prop} (current : Current disk goal previous entries)
    (bounded : Bounded changed made disk after)
    (apart : ∀ path entry, Entry.reached? entries path = some entry → ¬ changed (goal ++ path)) :
    Current after goal previous entries := by
  intro path before reached entry reached' there same bytes written content stands
  rcases bounded.kept _ (apart path entry reached') with unmoved | ⟨_, _, filled⟩
  · exact current path before reached entry reached' there same bytes written content
      (unmoved ▸ stands)
  · rw [filled] at stands
    cases stands

/-- Each entry stands there after all of them were published, by induction on the entries: those
that follow have other names. -/
theorem publishEach_shown (each : ∀ entry ∈ entries, Publishes entry)
    (distinct : (entries.map Entry.name).Nodup) :
    ∀ {disk : Disk} {written : Nat}, Leads directory goal disk →
      (∀ entry ∈ entries, Unmistaken disk goal [entry]) →
      (∀ entry ∈ entries, Current disk goal previous [entry]) →
      publishEach directory previous entries disk = .ok written after →
      ∀ entry ∈ entries, ∀ rest,
        after.thing? (goal ++ entry.name :: rest) = shown? [entry] (entry.name :: rest) := by
  induction entries with
  | nil =>
    intro disk written _ _ _ _ entry present
    cases present
  | cons first others ih =>
    intro disk written leads unmistaken current done entry present rest
    obtain ⟨fresh, distinct⟩ := List.nodup_cons.mp distinct
    obtain ⟨between, count, more, turns, rfl⟩ := publishEach_turns each leads done
    rcases List.mem_cons.mp present with rfl | among
    · rw [turns.unmoved fresh]
      exact (each entry List.mem_cons_self).shown leads (unmistaken entry List.mem_cons_self)
        (current entry List.mem_cons_self) turns.first rest
    · refine ih (fun other held => each other (List.mem_cons_of_mem _ held)) distinct turns.leads
        (fun other held => ?_) (fun other held => ?_) turns.later entry among rest
      · exact (unmistaken other (List.mem_cons_of_mem _ held)).lasts turns.changes leads.clear
          fun _ only => List.mem_singleton.mp only ▸
            (each other (List.mem_cons_of_mem _ held)).plain
      · refine (current other (List.mem_cons_of_mem _ held)).lasts turns.changes
          fun path entry' reached => ?_
        obtain ⟨more, rfl⟩ := Entry.reached?_only reached
        exact @not_under goal (· = first.name) other.name
          (fun same => fresh (same ▸ List.mem_map_of_mem held)) more

/-- Publishing into a directory changes nothing but what lies below it, and makes nothing but what
is visited on the way there. -/
theorem withDirectory_bounded (leads : Leads location goal disk) {fill : PublishM Nat}
    (filled : ∀ {between : Disk}, Leads location goal between →
      Bounded (Under goal fun _ => True) (Visits between location) between
        (afterwards fill between)) :
    Bounded (Under goal fun _ => True) (Visits disk location) disk
      (afterwards (withDirectory location entries fill) disk) := by
  have begun := @makeDirectories_bounded location disk (Under goal fun _ => True) leads.start
  refine .bind (by rwa [afterwards_noting]) fun _ between done => ?_
  rw [noting_eq_ok] at done
  rw [afterwards_of_ok done] at begun
  have leads' := leads.lasts_under begun
  have middle := filled leads'
  rw [leads.visits_under begun] at middle
  refine .bind middle fun written full done => ?_
  rw [afterwards_of_ok done] at middle
  refine .bind ?_ fun _ last _ => .refl last
  refine (removeOthers_bounded (leads'.lasts_under middle) entries).widen fun spot under => ?_
  exact under.mono fun _ _ => trivial

theorem publish_bounded (each : ∀ entry ∈ entries, Publishes entry)
    (leads : Leads location goal disk) :
    Bounded (Under goal fun _ => True) (Visits disk location) disk
      (afterwards (publish location previous entries) disk) := by
  refine withDirectory_bounded leads fun {between} leads' => ?_
  exact (@publishEach_bounded location goal entries previous each between leads').widen
    fun spot under => under.mono fun _ _ => trivial

/-- What a publication that does not end early does to the disk: it makes the directory, then fills
it with the entries, then removes what is left over. -/
structure Stages (location : Location) (goal : List Name) (previous entries : List Entry)
    (disk begun full after : Disk) (written : Nat) : Prop where
  begins : Bounded (fun _ => False) (Visits disk location) disk begun
  directory : begun.thing? goal = some .directory
  leads : Leads location goal begun
  filled : publishEach location previous entries begun = .ok written full
  fills : Bounded (Under goal (· ∈ entries.map Entry.name)) (Visits begun location) begun full
  leads' : Leads location goal full
  removed : removeOthers location entries full = .ok () after
  removes : Bounded (Under goal fun name => name.display ∉ displayed entries)
    (fun _ => False) full after

theorem publish_stages (each : ∀ entry ∈ entries, Publishes entry)
    (leads : Leads location goal disk)
    {written : Nat} (done : publish location previous entries disk = .ok written after) :
    ∃ begun full, Stages location goal previous entries disk begun full after written := by
  obtain ⟨_, begun, made, done⟩ := bind_done_iff.mp done
  obtain ⟨count, full, filled, done⟩ := bind_done_iff.mp done
  obtain ⟨_, last, removed, done⟩ := bind_done_iff.mp done
  cases done
  rw [noting_eq_ok] at made
  have begins := @makeDirectories_bounded location disk (fun _ => False) leads.start
  rw [afterwards_of_ok made] at begins
  have leads' : Leads location goal begun := leads.lasts begins fun _ => False.elim
  have fills := @publishEach_bounded location goal entries previous each begun leads'
  rw [afterwards_of_ok filled] at fills
  have leads'' := leads'.lasts_under fills
  have removes := @removeOthers_bounded location goal full (fun _ => False) leads'' entries
  rw [afterwards_of_ok removed] at removes
  exact ⟨begun, full, begins, makeDirectories_done leads.start leads.ends made, leads', filled,
    fills, leads'', removed, removes⟩

section Stages

variable {begun full : Disk} {written : Nat}
  (stages : Stages location goal previous entries disk begun full after written)

include stages

/-- What is displayed like an entry is not removed. -/
theorem Stages.wanted {name : Name} (wanted : name.display ∈ displayed entries) (rest : List Name) :
    after.thing? (goal ++ name :: rest) = full.thing? (goal ++ name :: rest) := by
  rcases stages.removes.kept _ (not_under (fun gone => gone wanted) rest) with same | ⟨new, _⟩
  · exact same
  · exact new.elim

theorem Stages.directory_after : after.thing? goal = some .directory := by
  have root {names : Name → Prop} : ¬ Under goal names goal := by
    rintro ⟨name, rest, _, same⟩
    simpa using congrArg List.length same
  exact stages.removes.directory root (stages.fills.directory root stages.directory)

end Stages

/-- A publication that does not end early leaves exactly the entries in the directory. -/
theorem publish_shows (each : ∀ entry ∈ entries, Publishes entry)
    (distinct : (entries.map Entry.name).Nodup) (leads : Leads location goal disk)
    (unmistaken : Unmistaken disk goal entries) (current : Current disk goal previous entries)
    {written : Nat} (done : publish location previous entries disk = .ok written after) :
    Shows after goal entries := by
  obtain ⟨begun, full, stages⟩ := publish_stages each leads done
  have plain : ∀ entry ∈ entries, Plain entry := fun entry present => (each entry present).plain
  have unmistaken' := unmistaken.lasts stages.begins leads.clear plain
  have shown := publishEach_shown each distinct stages.leads
    (fun entry present => unmistaken'.alone distinct present)
    (fun entry present => (current.lasts stages.begins fun _ _ _ => id).alone distinct present)
      stages.filled
  have unmistaken'' := unmistaken'.lasts stages.fills stages.leads.clear plain
  intro path
  cases path with
  | nil =>
    rw [List.append_nil]
    exact stages.directory_after
  | cons name rest =>
    by_cases present : name ∈ entries.map Entry.name
    · obtain ⟨entry, held, rfl⟩ := List.mem_map.mp present
      have wanted : entry.name.display ∈ displayed entries := List.mem_map.mpr ⟨entry, held, rfl⟩
      rw [stages.wanted wanted, shown entry held, Entry.shown?_alone distinct held]
    · rw [Entry.shown?_absent present]
      by_cases wanted : name.display ∈ displayed entries
      · -- What is left under no name of an entry would be displayed like one, and be taken for it.
        rw [stages.wanted wanted]
        by_contra there
        obtain ⟨entry, held, alike⟩ := List.mem_map.mp wanted
        have reached : Entry.reached? entries ([] ++ [entry.name]) ≠ none := by
          have found : Entry.reached? entries [entry.name] = some entry :=
            Entry.named?_of_mem distinct held
          simp [found]
        have above : full.thing? (goal ++ [] ++ [name]) ≠ none := by
          rw [List.append_nil]
          by_cases last : rest = []
          · rwa [last] at there
          · rw [List.append_cons] at there
            exact ne_of_eq_of_ne (Item.thing?_prefix last there) (by simp)
        have equal := unmistaken'' [] entry.name reached name above alike.symm
        exact present (equal ▸ List.mem_map_of_mem held)
      · exact removeOthers_done stages.leads' stages.removed wanted rest

/-- Removes a file that stands where a directory is wanted. -/
def clearFile (location : Location) (disk : Disk) : PublishM Unit :=
  if disk.isFile location then noting location (removeFile location) else pure ()

theorem publishEntry_directory (directory : Location) (previous : List Entry) (name : Name)
    (children : List Entry) (digest : Digest) (disk : Disk) :
    publishEntry directory previous (.directory name children digest) disk =
      (clearFile (directory.join (publishedName name)) disk >>= fun _ =>
        publish (directory.join (publishedName name)) (published (Entry.lastNamed? previous name))
          children)
          disk := by
  rw [publishEntry, get_bind, clearFile, publish]
  by_cases there : disk.isFile (directory.join (publishedName name)) = true
  · rw [if_pos there, if_pos there]
  · rw [if_neg there, if_neg there, pure_bind]

theorem clearFile_bounded (leads : Leads directory goal disk) (name : Name) :
    Bounded (Under goal (· = name)) made disk
      (afterwards (clearFile (directory.join name.bytes) disk) disk) := by
  unfold clearFile
  split
  · rw [afterwards_noting]
    exact (removeFile_bounded (leads.finds_in name false)).widen fun spot leads =>
      under_prefix leads rfl
  · exact .refl disk

/-- Nothing stood below a file that is removed. -/
theorem clearFile_below {name : Name} (leads : Leads directory goal disk)
    (done : clearFile (directory.join name.bytes) disk disk = .ok () after) {path : List Name}
    (below : path ≠ []) : after.thing? (goal ++ [name] ++ path) =
      disk.thing? (goal ++ [name] ++ path) := by
  unfold clearFile at done
  split at done
  · next there =>
    obtain ⟨content, stands⟩ := (leads.finds_in name true).isFile_at there
    rw [removeFile_done (leads.finds_in name false) (noting_eq_ok.mp done) path]
    by_contra inner
    have above := Item.thing?_prefix below (ne_comm.mp inner)
    rw [thing?, above] at stands
    cases stands
  · cases done
    rfl

/-- Where a file was removed no file is left that could stay, and elsewhere nothing changed. -/
theorem clearFile_current {name : Name} {previous : List Entry} (leads : Leads directory goal disk)
    (current : Current disk (goal ++ [name]) previous entries)
    (done : clearFile (directory.join name.bytes) disk disk = .ok () after) :
    Current after (goal ++ [name]) previous entries := by
  intro path before reached entry reached' there same bytes written content stands
  have below : path ≠ [] := fun empty => by
    rw [empty] at reached'
    cases reached'
  rw [clearFile_below leads done below] at stands
  exact current path before reached entry reached' there same bytes written content stands

/-- Entries that are written out as bytes. -/
theorem publishes_of_bytes (plain : Plain entry) {content : Bytes}
    (written : entry.bytes? = some content)
    (unfolds : ∀ directory previous, publishEntry directory previous entry =
      publishBytes (directory.join (publishedName entry.name))
        (Entry.lastNamed? previous entry.name)
        entry content) : Publishes entry where
  plain := plain
  bounded leads := by
    rw [unfolds, publishedName_of_textual plain.name]
    exact publishBytes_bounded leads plain.name
  shown := by
    intro directory goal disk previous count after leads _ current done rest
    rw [unfolds, publishedName_of_textual plain.name] at done
    rw [Entry.shown?_bytes written, List.append_cons]
    refine publishBytes_done leads plain.name (fun skipped content' stands => ?_) done rest
    simp only [isCurrent, Bool.and_eq_true, Option.any_eq_true, decide_eq_true_eq] at skipped
    obtain ⟨⟨before, known, there, same⟩, _⟩ := skipped
    have reached : Entry.lastReached? previous [entry.name] = some before := known
    have alone : Entry.reached? [entry] [entry.name] = some entry := by
      rw [Entry.reached?_bytes written, if_pos rfl]
    exact current [entry.name] before reached entry alone there same content written content' stands

/-- Directories, whose places are made on the way to what is in them. -/
theorem publishes_directory {name : Name} {children : List Entry} {digest : Digest}
    (plain : Plain (.directory name children digest)) (each : ∀ child ∈ children, Publishes child) :
    Publishes (.directory name children digest) where
  plain := plain
  bounded := by
    intro directory goal disk previous leads
    have text : name.Textual := plain.name
    have cleared := @clearFile_bounded directory goal disk (Visits disk directory) leads name
    rw [afterwards, publishEntry_directory, publishedName_of_textual text, ← afterwards]
    refine .bind cleared fun _ between done => ?_
    rw [afterwards_of_ok done] at cleared
    have leads' := leads.lasts_under cleared
    have filled := @publish_bounded (directory.join name.bytes) (goal ++ [name]) between children
      (published (Entry.lastNamed? previous name)) each (leads'.join name)
    rw [← leads.visits_under cleared]
    refine filled.mono (fun spot under => ?_) (fun spot visits => ?_) fun spot visits => ?_
    · obtain ⟨first, rest, _, rfl⟩ := under
      exact ⟨name, first :: rest, rfl, by simp⟩
    · rcases visits_join leads'.ends (leads'.plain name) visits with visits | here
      · exact .inr visits
      · exact .inl ⟨name, [], rfl, here⟩
    · rcases visits_join leads'.ends (leads'.plain name) visits with visits | here
      · exact .inl visits
      · exact .inr ⟨name, by simp [here], text⟩
  shown := by
    intro directory goal disk previous written after leads unmistaken current done rest
    have text : name.Textual := plain.name
    rw [publishEntry_directory, publishedName_of_textual text] at done
    obtain ⟨_, between, cleared, done⟩ := bind_done_iff.mp done
    have bounded := @clearFile_bounded directory goal disk (fun _ => False) leads name
    rw [afterwards_of_ok cleared] at bounded
    have unmistaken' : Unmistaken between (goal ++ [name]) children :=
      (unmistaken.lasts bounded (fun _ => False.elim) fun _ only => List.mem_singleton.mp only ▸
        plain).inside
    have shows := publish_shows each plain.distinct ((leads.lasts_under bounded).join name)
      unmistaken'
      (clearFile_current leads current.inside cleared) done
    rw [Entry.name, List.append_cons, shows rest, Entry.shown?_inside]

/-- Entries that can be written out as they are are published as they are, by induction on them. -/
theorem publishes (plain : Plain entry) : Publishes entry := by
  induction plain with
  | file text content stamp digest =>
    exact @publishes_of_bytes (.file _ content stamp digest)
      (.file text content stamp digest) content rfl
      fun _ _ => by rw [publishEntry, Entry.name]
  | archive text members bytes digest =>
    exact @publishes_of_bytes (.archive _ members bytes digest) (.archive text members bytes digest)
      bytes rfl
      fun _ _ => by rw [publishEntry, Entry.name]
  | directory text distinct inner digest ih =>
    exact publishes_directory (.directory text distinct inner digest) ih

end Depot.Disk

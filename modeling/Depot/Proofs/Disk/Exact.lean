import Depot.Proofs.Disk.Again
import Depot.Proofs.Disk.Count
import Depot.Proofs.Disk.Neighbours
import Depot.Sample

set_option autoImplicit false

namespace Depot.Disk

open Entry (Plain filesEach)

variable {directory : Location} {goal : List Name} {disk after : Disk}
  {previous entries : List Entry}
  {written : Nat}

/-- Outside of the directory nothing changes, apart from directories that are made on the way. -/
theorem publish_kept (each : ∀ entry ∈ entries, Plain entry) (leads : Leads directory goal disk)
    (done : publish directory previous entries disk = .ok written after) {spot : List Name}
    (outside : ¬ goal <+: spot) :
    after.thing? spot = disk.thing? spot ∨
      Visits disk directory spot ∧ disk.thing? spot = none ∧
        after.thing? spot = some .directory := by
  have bounded := @publish_bounded directory goal disk entries previous
    (fun entry present => publishes (each entry present)) leads
  rw [afterwards_of_ok done] at bounded
  refine bounded.kept spot ?_
  rintro ⟨name, rest, _, rfl⟩
  exact outside (List.prefix_append _ _)

/-- After a publication its directory is found, and the system takes all locations in it. -/
theorem publish_opens (each : ∀ entry ∈ entries, Plain entry) (leads : Leads directory goal disk)
    (done : publish directory previous entries disk = .ok written after) :
    Opens directory goal after ∧ ∀ entry ∈ entries, Fits directory entry := by
  have publish (entry : Entry) (present : entry ∈ entries) : Publishes entry :=
    publishes (each entry present)
  obtain ⟨begun, full, stages⟩ := publish_stages publish leads done
  refine ⟨⟨stages.leads'.lasts_under stages.removes, ?_⟩, ?_⟩
  · refine stages.leads'.find_lasts stages.removes (fun spot under => ?_) stages.find
    obtain ⟨name, rest, _, same⟩ := under
    exact ⟨name, rest, same⟩
  · exact publishEach_fits publish (fun entry present => publishEntry_fits (each entry present))
      stages.leads
      stages.filled

/-- A publication that does not end early leaves exactly the entries in its directory, whatever was
there before. Elsewhere only directories are made that are missing on the way. Its answer is how
many files the entries have, apart from those that were published before with the same digest and
are still there. Publishing the entries once more changes nothing, and does not end early either
unless the system refuses something. The entries have names that are texts, distinct among siblings;
the way to the directory comes through nothing inside it; nothing there is a link or displayed like
an entry without having its name; and the files that are left alone have the right content. -/
theorem publish_exact (each : ∀ entry ∈ entries, Plain entry)
    (distinct : (entries.map Entry.name).Nodup)
    (leads : Leads directory goal disk) (unmistaken : Unmistaken disk goal entries)
    (current : Current disk goal previous entries)
    (done : publish directory previous entries disk = .ok written after) :
    after.Shows goal entries ∧
      (∀ spot, ¬ goal <+: spot → after.thing? spot = disk.thing? spot ∨
        Visits disk directory spot ∧ disk.thing? spot = none ∧ after.thing? spot =
          some .directory) ∧
      written = disk.pending goal previous (filesEach entries) ∧
      ∀ again : Disk, again.items = after.items → again.working = after.working →
        Rests 0 again (publish directory entries entries again) := by
  have shows := publish_shows (fun entry present => publishes (each entry present)) distinct
    leads unmistaken
    current done
  obtain ⟨opens, fits⟩ := publish_opens each leads done
  refine ⟨shows, fun spot => publish_kept each leads done, publish_counts each distinct leads done,
    ?_⟩
  intro again items working
  have found : again.find true directory = .ok (.directory goal) := by
    rw [← opens.found, Disk.find, Disk.find, items, working]
  have opens' : Opens directory goal again :=
    ⟨opens.toLeads.lasts (@Bounded.of_items (fun _ => False) (fun _ => False) _ _ items working)
      fun _ => False.elim, found⟩
  refine publish_rests (fun entry present => resumes (each entry present)) distinct opens' fits
    fun path => ?_
  rw [thing?, items]
  exact shows path

/-- A tree of directories and files with names of a certain kind. -/
inductive Item.Ordinary (named : Name → Prop) : Item → Prop where
  | file {name : Name} (kind : named name) (content : Bytes) : Ordinary named (.file name content)
  | directory {name : Name} (kind : named name) {items : List Item}
    (inner : ∀ item ∈ items, Ordinary named item) : Ordinary named (.directory name items)

/-- In such a tree nothing is a link, and all names are of that kind. -/
theorem Item.Ordinary.thing? {named : Name → Prop} {items : List Item}
    (each : ∀ item ∈ items, item.Ordinary named)
    {path : List Name} {thing : Thing} (stands : Item.thing? items path = some thing) :
    (∀ target, thing ≠ .link target) ∧ ∀ name ∈ path, named name := by
  induction path generalizing items with
  | nil =>
    cases stands
    exact ⟨fun _ => Thing.noConfusion, List.forall_mem_nil _⟩
  | cons name rest ih =>
    rw [Item.thing?] at stands
    cases found : Item.named? items name with
    | none =>
      rw [found] at stands
      cases stands
    | some item =>
      rw [found] at stands
      obtain ⟨present, rfl⟩ := Item.name_of_named? found
      have ordinary := each item present
      cases ordinary with
      | file kind content =>
        dsimp only at stands
        split at stands
        · next last =>
          cases stands
          subst last
          exact ⟨fun _ => Thing.noConfusion, List.forall_mem_singleton.mpr kind⟩
        · cases stands
      | directory kind inner =>
        obtain ⟨plain, kinds⟩ := ih inner stands
        exact ⟨plain, List.forall_mem_cons.mpr ⟨kind, kinds⟩⟩

section Ordinary

variable {inner : List Item} {named : Name → Prop}
  (inside : Item.inside? disk.items goal = some inner)

include inside

theorem bare_of_ordinary (each : ∀ item ∈ inner, item.Ordinary named) (path : List Name)
    (target : Location) :
    disk.thing? (goal ++ path) ≠ some (.link target) := by
  rw [Disk.thing?, Item.thing?_append inside]
  exact fun link => (Item.Ordinary.thing? each link).1 target rfl

theorem legible_of_ordinary (each : ∀ item ∈ inner, item.Ordinary Name.Textual) :
    Legible disk goal := by
  intro path there
  rw [Disk.thing?, Item.thing?_append inside] at there
  obtain ⟨thing, stands⟩ := Option.ne_none_iff_exists'.mp there
  exact (Item.Ordinary.thing? each stands).2

end Ordinary

namespace Sample

open Depot.Sample (text newText)
open Name (textual_of_bytes)

def srv : Name := ⟨Bytes.ofString "srv", by decide⟩

def etc : Name := ⟨Bytes.ofString "etc", by decide⟩

def usr : Name := ⟨Bytes.ofString "usr", by decide⟩

def net : Name := ⟨Bytes.ofString "net", by decide⟩

/-- A tree with a directory where a file is wanted, a file that is there already, something that is
left over, and a file where a directory is wanted. -/
def leftovers : List Item :=
  [.directory usr [.file etc text], .file etc newText, .directory net [.directory srv []],
    .file srv text]

/-- A disk with this tree in a directory, and a link to the one around it. -/
def mixed : Disk :=
  ⟨[.directory usr [.directory srv leftovers], .link net (Bytes.ofString "/usr")], [], [], []⟩

def linked : Location := Bytes.ofString "net/srv"

def known : List Entry :=
  [.ofFile .mk etc newText 1]

def wanted : List Entry :=
  [.ofArchive .mk usr [] text, .ofFile .mk etc newText 2,
    .ofDirectory .mk srv [.ofFile .mk usr text 1]]

/-- The answer of a publication that does not end early, and what stands at a place after it. -/
def remains (outcome : EStateM.Result Fault Disk Nat) (spot : List Name) :
    Option (Nat × Option Thing) :=
  match outcome with
  | .ok written after => some (written, after.thing? spot)
  | .error _ _ => none

theorem plain_wanted : ∀ entry ∈ wanted, Plain entry := by
  have inner : ∀ child ∈ [Entry.ofFile .mk usr text 1], Plain child :=
    List.forall_mem_singleton.mpr (.file (textual_of_bytes rfl) ..)
  refine List.forall_mem_cons.mpr ⟨.archive (textual_of_bytes rfl) .., ?_⟩
  refine List.forall_mem_cons.mpr ⟨.file (textual_of_bytes rfl) .., ?_⟩
  exact List.forall_mem_singleton.mpr (.directory (textual_of_bytes rfl) (by decide) inner _)

theorem ordinary_leftovers : ∀ item ∈ leftovers, item.Ordinary Name.Textual := by
  refine List.forall_mem_cons.mpr ⟨.directory (textual_of_bytes rfl) ?_, ?_⟩
  · exact List.forall_mem_singleton.mpr (.file (textual_of_bytes rfl) _)
  refine List.forall_mem_cons.mpr ⟨.file (textual_of_bytes rfl) _, ?_⟩
  refine List.forall_mem_cons.mpr ⟨.directory (textual_of_bytes rfl) ?_, ?_⟩
  · exact List.forall_mem_singleton.mpr (.directory (textual_of_bytes rfl) (List.forall_mem_nil _))
  · exact List.forall_mem_singleton.mpr (.file (textual_of_bytes rfl) _)

theorem inside_mixed : Item.inside? mixed.items [usr, srv] = some leftovers := by
  simp [mixed, Item.inside?, Item.named?, Item.name, usr, srv]

theorem things_mixed :
    mixed.thing? [net] = some (.link (Bytes.ofString "/usr")) ∧ mixed.thing? [usr] =
      some .directory ∧
      mixed.thing? [usr, srv] = some .directory ∧
        mixed.thing? [usr, srv, etc] = some (.file newText) := by
  decide +kernel

theorem link_mixed : mixed.thing? (Location.enter [] net.bytes) =
    some (.link (Bytes.ofString "/usr")) := by
  rw [Location.enter_name]
  exact things_mixed.1

theorem directory_mixed (here : List Name) (name : Name)
    (stands : mixed.thing? (here ++ [name]) = some .directory)
    (target : Location) : mixed.thing? (Location.enter here name.bytes) ≠ some (.link target) := by
  rw [Location.enter_name, stands]
  exact fun same => nomatch same

theorem visits_mixed {spot : List Name} (visits : Visits mixed linked spot) : spot.length ≤ 2 := by
  obtain ⟨left, walks⟩ := visits
  have walks' : Walks mixed.items [] [net.bytes, srv.bytes] spot left := walks
  cases walks' with
  | stay _ _ => simp
  | enter plain _ => exact absurd link_mixed (plain _)
  | turn link further =>
    cases link.symm.trans link_mixed
    have further' : Walks mixed.items [] [usr.bytes, srv.bytes] spot left := further
    cases further' with
    | stay _ _ => simp
    | turn link _ => exact absurd link (directory_mixed [] usr things_mixed.2.1 _)
    | enter _ further =>
      rw [Location.enter_name] at further
      cases further with
      | stay _ _ => simp
      | turn link _ => exact absurd link (directory_mixed [usr] srv things_mixed.2.2.1 _)
      | enter _ further =>
        rw [Location.enter_name] at further
        cases further
        simp

/-- The way follows the link and then comes to the directory. -/
theorem leads_mixed : Leads linked [usr, srv] mixed where
  start := rfl
  ends := by
    have outer := directory_mixed [] usr things_mixed.2.1
    have inner := directory_mixed [usr] srv things_mixed.2.2.1
    have walks : Walks mixed.items [] [usr.bytes, srv.bytes] [usr, srv] [] := by
      refine .enter outer ?_
      rw [Location.enter_name]
      refine .enter inner ?_
      rw [Location.enter_name]
      exact .stay _ []
    have followed : Walks mixed.items [] [net.bytes, srv.bytes] [usr, srv] [] :=
      .turn link_mixed walks
    exact followed
  clear := by
    rintro spot visits name rest rfl
    have short := visits_mixed visits
    simp at short
  bare := bare_of_ordinary inside_mixed ordinary_leftovers

/-- Only one file was published before, and it has the right content. -/
theorem current_mixed : Current mixed [usr, srv] known wanted := by
  intro path before reached entry reached' _ _ bytes written content stands
  have plain : ∀ entry ∈ known, Plain entry :=
    List.forall_mem_singleton.mpr (.file (textual_of_bytes rfl) ..)
  have same : Entry.lastReached? known path = Entry.reached? known path :=
    Entry.lastReached?_eq (fun _ _ _ plain => ⟨plain.distinct, plain.inside⟩) (by decide) plain
  rw [same] at reached
  obtain ⟨rest, rfl⟩ := Entry.reached?_only reached
  have only := @Entry.reached?_bytes (.ofFile .mk etc newText 1) newText rfl rest
  rw [Option.mem_def, known, only] at reached
  split at reached
  · next last =>
    subst last
    have entry' : Entry.reached? wanted [etc] = some (.ofFile .mk etc newText 2) := rfl
    obtain ⟨_, _, _, content'⟩ := things_mixed
    cases entry'.symm.trans reached'
    cases content'.symm.trans stands
    exact Option.some.inj written
  · cases reached

theorem publish_exact_mixed :
    ∃ after, publish linked known wanted mixed = .ok 2 after ∧ after.Shows [usr, srv] wanted ∧
      mixed.pending [usr, srv] known (filesEach wanted) = 2 ∧
      Rests 0 after (publish linked wanted wanted after) := by
  have unmistaken := (legible_of_ordinary inside_mixed ordinary_leftovers).unmistaken plain_wanted
  have answered : remains (publish linked known wanted mixed) [] = some (2, some .directory) := by
    decide +kernel
  cases done : publish linked known wanted mixed with
  | error fault after =>
    rw [done] at answered
    cases answered
  | ok written after =>
    rw [done] at answered
    cases answered
    obtain ⟨shows, _, counted, again⟩ :=
      publish_exact plain_wanted (by decide) leads_mixed unmistaken
      current_mixed done
    exact ⟨after, rfl, shows, counted.symm, again after rfl rfl⟩

/-- A directory with a directory in which there is another one. -/
def nested : Disk :=
  ⟨[.directory srv [.directory usr [.directory etc []]]], [], [], []⟩

/-- The outermost of them, by a way through all of them. -/
def winding : Location := Bytes.ofString "srv/usr/etc/../.."

def emptied : List Entry :=
  [.ofDirectory .mk usr [], .ofDirectory .mk etc []]

/-- What is removed inside a directory is made again, if the way to the directory comes through it.
-/
theorem not_shows_nested :
    (∀ entry ∈ emptied, Plain entry) ∧ Walks nested.items [] (Location.steps winding) [srv] [] ∧
      nested.Linkless ∧ Unmistaken nested [srv] emptied ∧ Current nested [srv] [] emptied ∧
      ∃ after, publish winding [] emptied nested = .ok 0 after ∧ ¬ after.Shows [srv] emptied := by
  have plain : ∀ entry ∈ emptied, Plain entry := by
    refine List.forall_mem_cons.mpr
      ⟨.directory (textual_of_bytes rfl) (by decide) (List.forall_mem_nil _) _, ?_⟩
    exact List.forall_mem_singleton.mpr
      (.directory (textual_of_bytes rfl) (by decide) (List.forall_mem_nil _) _)
  have inner : ∀ item ∈ [Item.directory usr [.directory etc []]], item.Ordinary Name.Textual := by
    refine List.forall_mem_singleton.mpr
      (.directory (textual_of_bytes rfl) (List.forall_mem_singleton.mpr ?_))
    exact .directory (textual_of_bytes rfl) (List.forall_mem_nil _)
  have linkless : nested.Linkless := @bare_of_ordinary [] nested nested.items _ rfl
    (List.forall_mem_singleton.mpr (.directory (textual_of_bytes rfl) inner))
  have walks := Walks.of_linkless linkless [] (Location.steps winding) []
  have ends : (Location.steps winding).foldl Location.enter [] = [srv] := by decide +kernel
  rw [List.append_nil, ends] at walks
  have inside : Item.inside? nested.items [srv] = some [.directory usr [.directory etc []]] := by
    simp [nested, Item.inside?, Item.named?, Item.name]
  refine ⟨plain, walks, linkless, (legible_of_ordinary inside inner).unmistaken plain,
    .of_nothing _ _ _, ?_⟩
  have stays : remains (publish winding [] emptied nested) [srv, usr, etc] =
      some (0, some .directory) := by
    decide +kernel
  cases done : publish winding [] emptied nested with
  | error fault after =>
    rw [done] at stays
    cases stays
  | ok written after =>
    rw [done] at stays
    obtain ⟨rfl, stands⟩ : written = 0 ∧ after.thing? [srv, usr, etc] = some .directory := by
      simpa [remains] using stays
    refine ⟨after, rfl, fun shows => ?_⟩
    have shown := shows [usr, etc]
    have absent : Entry.shown? emptied [usr, etc] = none := rfl
    rw [absent] at shown
    cases stands.symm.trans shown

end Sample

end Depot.Disk

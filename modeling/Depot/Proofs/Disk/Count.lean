import Depot.Proofs.Disk.Publish

set_option autoImplicit false

namespace Depot

namespace Entry

mutual

/-- What is written out as bytes in the tree of an entry, with the chains of names that lead there.
-/
def files : Entry → List (List Name × Entry)
  | directory name children _ => (filesEach children).map fun file => (name :: file.1, file.2)
  | file name content stamp digest => [([name], file name content stamp digest)]
  | archive name members bytes digest => [([name], archive name members bytes digest)]

/-- What is written out as bytes in the trees of some entries. -/
def filesEach : List Entry → List (List Name × Entry)
  | [] => []
  | entry :: rest => files entry ++ filesEach rest

end

variable {entries : List Entry} {entry : Entry} {file : List Name × Entry}

theorem files_bytes {content : Bytes} (written : entry.bytes? = some content) :
    files entry = [([entry.name], entry)] := by
  cases entry with
  | directory _ _ _ => cases written
  | file _ _ _ _ => rw [files, name]
  | archive _ _ _ _ => rw [files, name]

theorem mem_filesEach : file ∈ filesEach entries ↔ ∃ entry ∈ entries, file ∈ files entry := by
  induction entries with
  | nil => simp [filesEach]
  | cons entry rest ih => simp [filesEach, ih]

/-- The name of an entry comes first on the way to its files. -/
theorem files_path (present : file ∈ files entry) : ∃ rest, file.1 = entry.name :: rest := by
  cases entry with
  | directory name children digest =>
    rw [files] at present
    obtain ⟨inner, _, rfl⟩ := List.mem_map.mp present
    exact ⟨inner.1, rfl⟩
  | file name content stamp digest =>
    rw [files, List.mem_singleton] at present
    exact ⟨[], by rw [present, Entry.name]⟩
  | archive name members bytes digest =>
    rw [files, List.mem_singleton] at present
    exact ⟨[], by rw [present, Entry.name]⟩

theorem filesEach_path (present : file ∈ filesEach entries) :
    ∃ entry ∈ entries, ∃ rest, file.1 = entry.name :: rest := by
  obtain ⟨entry, held, present⟩ := mem_filesEach.mp present
  exact ⟨entry, held, files_path present⟩

end Entry

namespace Disk

open Entry (Plain files filesEach)

def holdsFile (disk : Disk) (spot : List Name) : Bool :=
  disk.thing? spot matches some (.file _)

/-- Whether a file need not be written: what was published in its place is written out as bytes and
has the same digest, and a file is there. -/
def spared (disk : Disk) (goal : List Name) (previous : List Entry) (file : List Name × Entry) :
    Bool :=
  ((Entry.lastReached? previous file.1).any fun before =>
    before.bytes?.isSome && before.digest = file.2.digest) && disk.holdsFile (goal ++ file.1)

def pending (disk : Disk) (goal : List Name) (previous : List Entry)
    (files : List (List Name × Entry)) :
    Nat :=
  files.countP fun file => !disk.spared goal previous file

variable {directory location : Location} {goal spot : List Name} {disk after : Disk} {entry : Entry}
  {entries previous : List Entry} {files : List (List Name × Entry)} {written : Nat}

theorem holdsFile_eq_true : disk.holdsFile spot = true ↔
    ∃ content, disk.thing? spot = some (.file content) := by
  unfold holdsFile
  split
  · next content stands => simp [stands]
  · next other => simpa using other

theorem pending_congr
    (same : ∀ file ∈ files, after.holdsFile (goal ++ file.1) = disk.holdsFile (goal ++ file.1)) :
    after.pending goal previous files = disk.pending goal previous files := by
  refine List.countP_congr fun file present => ?_
  rw [spared, spared, same file present]

/-- Making directories makes no files and covers none. -/
theorem Bounded.holdsFile {changed made : List Name → Prop}
    (bounded : Bounded changed made disk after)
    (apart : ¬ changed spot) : after.holdsFile spot = disk.holdsFile spot := by
  unfold Disk.holdsFile
  rcases bounded.kept spot apart with same | ⟨_, vacant, made⟩
  · rw [same]
  · rw [vacant, made]

/-- The files of a directory are those inside. -/
theorem pending_directory {name : Name} {children : List Entry} {digest : Digest} :
    disk.pending goal previous (Entry.files (.directory name children digest)) =
      disk.pending (goal ++ [name]) (published (Entry.lastNamed? previous name))
        (filesEach children) := by
  rw [pending, pending, Entry.files, List.countP_map]
  refine List.countP_congr fun file present => ?_
  obtain ⟨entry, _, rest, path⟩ := Entry.filesEach_path present
  have filled : file.1 ≠ [] := path ▸ List.cons_ne_nil _ _
  simp only [Function.comp, spared, Entry.lastReached?, if_neg filled, List.append_assoc,
    List.singleton_append]

theorem pending_single {name : Name} :
    disk.pending goal previous [([name], entry)] =
      if ((Entry.lastNamed? previous name).any fun before =>
        before.bytes?.isSome && before.digest = entry.digest) &&
          disk.holdsFile (goal ++ [name]) then 0
      else 1 := by
  have known : Entry.lastReached? previous [name] = Entry.lastNamed? previous name := rfl
  have alone : disk.pending goal previous [([name], entry)] =
      if disk.spared goal previous ([name], entry) then 0 else 1 := by
    rw [pending, List.countP_singleton]
    cases disk.spared goal previous ([name], entry) <;> rfl
  rw [alone, spared, known]

/-- The answer of publishing an entry is how many of its files are to be written. -/
def Counts (entry : Entry) : Prop :=
  ∀ {directory goal disk previous written after}, Leads directory goal disk →
    publishEntry directory previous entry disk = .ok written after →
    written = disk.pending goal previous (Entry.files entry)

/-- A file that is written out was not there yet, or not known. -/
theorem publishBytes_counts {name : Name} {content : Bytes} (leads : Leads directory goal disk)
    (done : publishBytes (directory.join name.bytes) (Entry.lastNamed? previous name) entry
      content disk =
      .ok written after) :
    written = disk.pending goal previous [([name], entry)] := by
  rw [pending_single]
  have finds := leads.finds_in name true
  rw [publishBytes_eq] at done
  by_cases current : isCurrent disk (directory.join name.bytes)
    (Entry.lastNamed? previous name) entry = true
  · rw [if_pos current] at done
    cases done
    rw [isCurrent, Bool.and_eq_true] at current
    rw [current.1, holdsFile_eq_true.mpr (finds.isFile_at current.2)]
    rfl
  · rw [if_neg current] at done
    obtain ⟨_, between, cleared, done⟩ := bind_done_iff.mp done
    obtain ⟨_, full, filled, done⟩ := bind_done_iff.mp done
    cases done
    refine (if_neg fun spared => current ?_).symm
    rw [Bool.and_eq_true] at spared
    rw [isCurrent, spared.1, Bool.true_and]
    obtain ⟨content', stands⟩ := holdsFile_eq_true.mp spared.2
    -- No directory stands there, so that the file was looked up on the disk as it was.
    have nothing : ¬ disk.isDirectory (directory.join name.bytes) = true := fun there => by
      rw [finds.isDirectory_at there] at stands
      cases stands
    rw [makeWay, if_neg nothing] at cleared
    cases cleared
    obtain ⟨found, looked, _⟩ := lookUp_done (noting_eq_ok.mp filled)
    have there := finds found looked
    rw [isFile, looked]
    generalize whole : goal ++ [name] = spot at there stands
    cases there with
    | directory there =>
      rw [thing?, there] at stands
      cases stands
    | file _ => rfl
    | vacant _ absent =>
      rw [thing?, absent] at stands
      cases stands

theorem counts_of_bytes (text : entry.name.Textual) {content : Bytes}
    (bytes : entry.bytes? = some content)
    (unfolds : ∀ directory previous, publishEntry directory previous entry =
      publishBytes (directory.join (publishedName entry.name))
        (Entry.lastNamed? previous entry.name)
        entry content) : Counts entry := by
  intro directory goal disk previous written after leads done
  rw [unfolds, publishedName_of_textual text] at done
  rw [publishBytes_counts leads done, Entry.files_bytes bytes]

/-- What is published for the other entries changes none of the files. -/
theorem publishEach_counts (each : ∀ entry ∈ entries, Publishes entry)
    (counts : ∀ entry ∈ entries, Counts entry) (distinct : (entries.map Entry.name).Nodup) :
    ∀ {disk : Disk} {written : Nat}, Leads directory goal disk →
      publishEach directory previous entries disk = .ok written after →
      written = disk.pending goal previous (filesEach entries) := by
  induction entries with
  | nil =>
    intro disk written _ done
    cases done
    rfl
  | cons entry rest ih =>
    intro disk written leads done
    obtain ⟨fresh, distinct⟩ := List.nodup_cons.mp distinct
    obtain ⟨between, count, more, turns, rfl⟩ := publishEach_turns each leads done
    have later := ih (fun other held => each other (List.mem_cons_of_mem _ held))
      (fun other held => counts other (List.mem_cons_of_mem _ held)) distinct
        turns.leads turns.later
    have same : between.pending goal previous (filesEach rest) = disk.pending goal previous
        (filesEach rest) := by
      refine pending_congr fun file present => ?_
      obtain ⟨other, held, path, whole⟩ := Entry.filesEach_path present
      rw [whole]
      exact turns.changes.holdsFile (@not_under goal (· = entry.name) other.name
        (fun same => fresh (same ▸ List.mem_map_of_mem held)) path)
    rw [counts entry List.mem_cons_self leads turns.first, later, same, filesEach, pending,
      pending, pending, List.countP_append]

theorem publish_counts_of_each (each : ∀ entry ∈ entries, Publishes entry)
    (counts : ∀ entry ∈ entries, Counts entry) (distinct : (entries.map Entry.name).Nodup)
    (leads : Leads location goal disk)
    (done : publish location previous entries disk = .ok written after) :
    written = disk.pending goal previous (filesEach entries) := by
  obtain ⟨begun, full, stages⟩ := publish_stages each leads done
  rw [publishEach_counts each counts distinct stages.leads stages.filled]
  exact pending_congr fun file _ => stages.begins.holdsFile id

theorem counts_directory {name : Name} {children : List Entry} {digest : Digest}
    (plain : Plain (.directory name children digest)) (counts : ∀ child ∈ children, Counts child) :
    Counts (.directory name children digest) := by
  intro directory goal disk previous written after leads done
  have text : name.Textual := plain.name
  rw [publishEntry_directory, publishedName_of_textual text] at done
  obtain ⟨_, between, cleared, done⟩ := bind_done_iff.mp done
  have bounded := @clearFile_bounded directory goal disk (fun _ => False) leads name
  rw [afterwards_of_ok cleared] at bounded
  rw [publish_counts_of_each (fun child present => publishes (plain.inside child present)) counts
    plain.distinct ((leads.lasts_under bounded).join name) done, pending_directory]
  refine pending_congr fun file present => ?_
  obtain ⟨entry, _, rest, path⟩ := Entry.filesEach_path present
  rw [holdsFile, holdsFile, clearFile_below leads cleared (path ▸ List.cons_ne_nil _ _)]

/-- Publishing an entry writes those of its files that are to be written, by induction on the entry.
-/
theorem counts (plain : Plain entry) : Counts entry := by
  induction plain with
  | file text content stamp digest =>
    exact @counts_of_bytes (.file _ content stamp digest) text content rfl
      fun _ _ => by rw [publishEntry, Entry.name]
  | archive text members bytes digest =>
    exact @counts_of_bytes (.archive _ members bytes digest) text bytes rfl
      fun _ _ => by rw [publishEntry, Entry.name]
  | directory text distinct inner digest ih =>
    exact counts_directory (.directory text distinct inner digest) ih

/-- The answer of a publication is the number of files that were to be written. -/
theorem publish_counts (each : ∀ entry ∈ entries, Plain entry)
    (distinct : (entries.map Entry.name).Nodup) (leads : Leads location goal disk)
    (done : publish location previous entries disk = .ok written after) :
    written = disk.pending goal previous (filesEach entries) :=
  publish_counts_of_each (fun entry present => publishes (each entry present))
    (fun entry present => counts (each entry present)) distinct leads done

end Disk

end Depot

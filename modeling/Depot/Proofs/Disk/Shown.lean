import Depot.Disk.Publish
import Depot.Proofs.Build.Names
import Depot.Proofs.Build.Sealed
import Depot.Proofs.Disk.Tree

set_option autoImplicit false

namespace Depot

open Disk (Thing published)

namespace Entry

/-- The entry at the end of a chain of names that leads through directories. -/
def reached? (entries : List Entry) : (path : List Name) → Option Entry
  | [] => none
  | name :: rest =>
    if rest = [] then named? entries name else reached? (published (named? entries name)) rest

def lastReached? (entries : List Entry) : (path : List Name) → Option Entry
  | [] => none
  | name :: rest =>
    if rest = [] then lastNamed? entries name else lastReached?
      (published (lastNamed? entries name)) rest

/-- What an entry is written out as, without its name and without what it holds. -/
def thing : Entry → Thing
  | file _ content _ _ => .file content
  | directory .. => .directory
  | archive _ _ bytes _ => .file bytes

/-- What stands at the end of a chain of names in a directory that holds just the given entries. -/
def shown? (entries : List Entry) (path : List Name) : Option Thing :=
  if path = [] then some .directory else (reached? entries path).map thing

/-- An entry that can be written out as it is: siblings have distinct names, which are texts. What
is inside an archive does not matter. -/
inductive Plain : Entry → Prop where
  | file {name : Name} (text : name.Textual) (content : Bytes) (stamp : Stamp) (digest : Digest) :
    Plain (.file name content stamp digest)
  | directory {name : Name} (text : name.Textual) {children : List Entry}
    (distinct : (children.map Entry.name).Nodup) (inner : ∀ child ∈ children, Plain child)
    (digest : Digest) : Plain (.directory name children digest)
  | archive {name : Name} (text : name.Textual) (members : List Entry) (bytes : Bytes)
    (digest : Digest) : Plain (.archive name members bytes digest)

variable {hash : Hash} {entries : List Entry} {entry : Entry} {path : List Name}

theorem Plain.name (plain : entry.Plain) : entry.name.Textual := by
  cases plain with
  | file text => exact text
  | directory text _ => exact text
  | archive text => exact text

theorem Plain.distinct {name : Name} {children : List Entry} {digest : Digest}
    (plain : Plain (.directory name children digest)) : (children.map Entry.name).Nodup := by
  cases plain with
  | directory _ distinct _ => exact distinct

theorem Plain.inside {name : Name} {children : List Entry} {digest : Digest}
    (plain : Plain (.directory name children digest)) : ∀ child ∈ children, Plain child := by
  cases plain with
  | directory _ _ inner => exact inner

theorem Sealed.plain (closed : Sealed hash entry) : entry.Textual → entry.Plain := by
  induction closed with
  | file name content stamp => exact fun textual => .file textual.name _ _ _
  | directory distinct _ ih =>
    intro textual
    exact .directory textual.name distinct
      (fun child present => ih child present (textual.inside child present)) _
  | archive _ _ _ => exact fun textual => .archive textual.name _ _ _

theorem reached?_absent (path : List Name) : reached? [] path = none := by
  induction path with
  | nil => rfl
  | cons name rest ih =>
    rw [reached?]
    split
    · rfl
    · exact ih

theorem lastReached?_absent (path : List Name) : lastReached? [] path = none := by
  induction path with
  | nil => rfl
  | cons name rest ih =>
    rw [lastReached?]
    split
    · rfl
    · exact ih

theorem lastNamed?_eq (distinct : (entries.map Entry.name).Nodup) (name : Name) :
    lastNamed? entries name = named? entries name := by
  by_cases present : name ∈ entries.map Entry.name
  · obtain ⟨entry, held, rfl⟩ := List.mem_map.mp present
    have distinct' : (entries.reverse.map Entry.name).Nodup := by
      rwa [List.map_reverse, List.nodup_reverse]
    rw [lastNamed?, named?_of_mem distinct' (List.mem_reverse.mpr held),
      named?_of_mem distinct held]
  · rw [lastNamed?, Assembler.named?_eq_none (by simpa using present),
      Assembler.named?_eq_none present]

/-- Where siblings have distinct names there is one entry of a name at most. -/
theorem lastReached?_eq {motive : Entry → Prop} (inner : ∀ name children digest,
      motive (.directory name children digest) →
        (children.map Entry.name).Nodup ∧ ∀ child ∈ children, motive child) :
    ∀ {entries : List Entry}, (entries.map Entry.name).Nodup → (∀ entry ∈ entries, motive entry) →
      lastReached? entries path = reached? entries path := by
  induction path with
  | nil => exact fun _ _ => rfl
  | cons name rest ih =>
    intro entries distinct each
    rw [lastReached?, reached?, lastNamed?_eq distinct]
    split
    · rfl
    · cases found : named? entries name with
      | none => exact (lastReached?_absent rest).trans (reached?_absent rest).symm
      | some parent =>
        have held := each parent (List.mem_of_find?_eq_some found)
        cases parent with
        | file _ _ _ _ => exact (lastReached?_absent rest).trans (reached?_absent rest).symm
        | archive _ _ _ _ => exact (lastReached?_absent rest).trans (reached?_absent rest).symm
        | directory name' children digest =>
          obtain ⟨distinct', each'⟩ := inner name' children digest held
          exact ih distinct' each'

theorem reached?_mem {motive : Entry → Prop} (inner : ∀ name children digest,
      motive (.directory name children digest) → ∀ child ∈ children, motive child) :
    ∀ {entries : List Entry}, (∀ entry ∈ entries, motive entry) →
      reached? entries path = some entry →
      motive entry := by
  induction path with
  | nil => exact fun _ reached => nomatch reached
  | cons name rest ih =>
    intro entries each reached
    rw [reached?] at reached
    split at reached
    · exact each entry (List.mem_of_find?_eq_some reached)
    · refine ih (fun child present => ?_) reached
      cases found : named? entries name with
      | none => simp [found, published] at present
      | some parent =>
        have held := each parent (List.mem_of_find?_eq_some found)
        rw [found] at present
        cases parent with
        | file _ _ _ _ => cases present
        | archive _ _ _ _ => cases present
        | directory name' children digest => exact inner name' children digest held child present

theorem name_of_reached? {name : Name} : ∀ {entries : List Entry},
    reached? entries (path ++ [name]) = some entry → entry.name = name := by
  induction path with
  | nil =>
    intro entries reached
    have found : named? entries name = some entry := reached
    simpa using List.find?_some found
  | cons first rest ih =>
    intro entries reached
    rw [List.cons_append, reached?, if_neg (by simp)] at reached
    exact ih reached

/-- From one entry only chains that begin with its name lead on. -/
theorem reached?_only {other : Entry} (reached : reached? [entry] path = some other) :
    ∃ rest, path = entry.name :: rest := by
  cases path with
  | nil => cases reached
  | cons name rest =>
    by_cases same : name = entry.name
    · exact ⟨rest, congrArg (· :: rest) same⟩
    · have absent : name ∉ [entry].map Entry.name := by simpa using same
      have nothing : published (none : Option Entry) = [] := rfl
      rw [reached?, Assembler.named?_eq_none absent, nothing, reached?_absent, ite_self] at reached
      cases reached

/-- Under the name of an entry nothing counts but this entry. -/
theorem reached?_alone (distinct : (entries.map Entry.name).Nodup) (present : entry ∈ entries)
    (rest : List Name) :
    reached? entries (entry.name :: rest) = reached? [entry] (entry.name :: rest) := by
  have only : named? [entry] entry.name = some entry := by simp [named?]
  rw [reached?, reached?, named?_of_mem distinct present, only]

theorem shown?_alone (distinct : (entries.map Entry.name).Nodup) (present : entry ∈ entries)
    (rest : List Name) : shown? entries (entry.name :: rest) =
      shown? [entry] (entry.name :: rest) := by
  rw [shown?, shown?, reached?_alone distinct present]

theorem shown?_absent {name : Name} (absent : name ∉ entries.map Entry.name) (rest : List Name) :
    shown? entries (name :: rest) = none := by
  have nothing : named? entries name = none := Assembler.named?_eq_none absent
  have none : published (Option.none : Option Entry) = [] := rfl
  rw [shown?, if_neg (List.cons_ne_nil name rest), reached?, nothing, none,
    reached?_absent, ite_self, Option.map_none]

theorem reached?_inside (name : Name) (children : List Entry) (digest : Digest)
    (filled : path ≠ []) :
    reached? [.directory name children digest] (name :: path) = reached? children path := by
  have only : named? [.directory name children digest] name =
      some (.directory name children digest) := by
    simp [named?, Entry.name]
  rw [reached?, if_neg filled, only, published]

theorem shown?_inside (name : Name) (children : List Entry) (digest : Digest) (path : List Name) :
    shown? [.directory name children digest] (name :: path) = shown? children path := by
  rw [shown?, if_neg (List.cons_ne_nil name path), shown?]
  by_cases last : path = []
  · simp [last, reached?, named?, Entry.name, thing]
  · rw [if_neg last, reached?_inside name children digest last]

theorem reached?_bytes {content : Bytes} (written : entry.bytes? = some content)
    (rest : List Name) :
    reached? [entry] (entry.name :: rest) = if rest = [] then some entry else none := by
  have only : named? [entry] entry.name = some entry := by simp [named?]
  rw [reached?, only]
  by_cases last : rest = []
  · rw [if_pos last, if_pos last]
  · rw [if_neg last, if_neg last]
    cases entry with
    | directory _ _ _ => cases written
    | file _ _ _ _ => exact reached?_absent rest
    | archive _ _ _ _ => exact reached?_absent rest

theorem thing_of_bytes {content : Bytes} (written : entry.bytes? = some content) :
    entry.thing = .file content := by
  cases entry with
  | directory _ _ _ => cases written
  | file _ _ _ _ => exact congrArg Thing.file (Option.some.inj written)
  | archive _ _ _ _ => exact congrArg Thing.file (Option.some.inj written)

theorem shown?_bytes {content : Bytes} (written : entry.bytes? = some content) (rest : List Name) :
    shown? [entry] (entry.name :: rest) = if rest = [] then some (.file content) else none := by
  rw [shown?, if_neg (List.cons_ne_nil entry.name rest), reached?_bytes written]
  by_cases last : rest = []
  · rw [if_pos last, if_pos last, Option.map_some, thing_of_bytes written]
  · rw [if_neg last, if_neg last, Option.map_none]

theorem named?_toMembers (entries : List Entry) (name : Name) :
    (toMembers entries).find? (fun member => member.name = name) =
      (named? entries name).map toMember := by
  rw [toMembers_eq, named?, List.find?_map]
  congr 2
  funext entry
  simp [name_toMember]

theorem toMembers_published (held? : Option Entry) :
    toMembers (published held?) = ((held?.map toMember).map Member.children).getD [] := by
  cases held? with
  | none => rfl
  | some entry => cases entry <;> rfl

theorem thing_toMember (entry : Entry) :
    entry.thing =
      match entry.toMember with
      | .file _ content => .file content
      | .directory _ _ => .directory := by
  cases entry <;> rfl

/-- Entries that make the same archive show the same. -/
theorem shown?_congr {left right : List Entry} (same : toMembers left = toMembers right)
    (path : List Name) : shown? left path = shown? right path := by
  have reach : (reached? left path).map thing = (reached? right path).map thing := by
    induction path generalizing left right with
    | nil => rfl
    | cons name rest ih =>
      have named : (named? left name).map toMember = (named? right name).map toMember := by
        rw [← named?_toMembers, same, named?_toMembers]
      rw [reached?, reached?]
      by_cases last : rest = []
      · have things := congrArg (Option.map fun member : Member =>
          match member with
          | .file _ content => Thing.file content
          | .directory _ _ => .directory) named
        simpa only [if_pos last, Option.map_map, Function.comp_def, ← thing_toMember] using things
      · rw [if_neg last, if_neg last]
        refine ih ?_
        rw [toMembers_published, toMembers_published, named]
  rw [shown?, shown?, reach]

theorem hashed_of_reached? : ∀ {entries : List Entry}, reached? entries path = some entry →
    entry.hashed ⊆ hashedEach entries := by
  induction path with
  | nil => exact fun reached => nomatch reached
  | cons name rest ih =>
    intro entries reached
    rw [reached?] at reached
    split at reached
    · exact hashed_subset (List.mem_of_find?_eq_some reached)
    · cases found : named? entries name with
      | none =>
        rw [found] at reached
        exact absurd reached (by simp [published, reached?_absent])
      | some parent =>
        rw [found] at reached
        have outer := hashed_subset (List.mem_of_find?_eq_some found)
        cases parent with
        | file _ _ _ _ => exact absurd reached (by simp [published, reached?_absent])
        | archive _ _ _ _ => exact absurd reached (by simp [published, reached?_absent])
        | directory name' children digest =>
          have inner : entry.hashed ⊆ hashedEach children := ih reached
          exact fun string held => outer (List.mem_cons_of_mem _ (inner held))

theorem Sealed.inside {name : Name} {children : List Entry} {digest : Digest}
    (closed : Sealed hash (.directory name children digest)) :
    (children.map Entry.name).Nodup ∧ ∀ child ∈ children, Sealed hash child := by
  cases closed with
  | directory distinct inner => exact ⟨distinct, inner⟩

/-- The digest of an entry that is written out as bytes is the one of these bytes. -/
theorem Sealed.digest_bytes (closed : Sealed hash entry) {content : Bytes}
    (written : entry.bytes? = some content) : entry.digest = hash content ∧
      content ∈ entry.hashed := by
  cases closed with
  | file name content' stamp =>
    cases written
    exact ⟨rfl, List.mem_singleton.mpr rfl⟩
  | directory _ _ => cases written
  | archive _ _ =>
    cases written
    exact ⟨rfl, List.mem_cons_self⟩

end Entry

namespace Disk

/-- A directory holds exactly the given entries. -/
def Shows (disk : Disk) (goal : List Name) (entries : List Entry) : Prop :=
  ∀ path, disk.thing? (goal ++ path) = Entry.shown? entries path

/-- Wherever a file would not be written again, the file that is there has the right content. -/
def Current (disk : Disk) (goal : List Name) (previous entries : List Entry) : Prop :=
  ∀ path, ∀ before ∈ Entry.lastReached? previous path, ∀ entry ∈ Entry.reached? entries path,
    before.bytes?.isSome = true → before.digest = entry.digest →
      ∀ bytes ∈ entry.bytes?, ∀ content, disk.thing? (goal ++ path) = some (.file content) →
        content = bytes

variable {disk : Disk} {goal : List Name} {previous entries : List Entry}

/-- If nothing was published, everything is written. -/
theorem Current.of_nothing (disk : Disk) (goal : List Name) (entries : List Entry) :
    Current disk goal [] entries := by
  intro path before reached
  rw [Entry.lastReached?_absent] at reached
  cases reached

/-- What was published and is still there need not be written again, unless byte strings collide. -/
theorem Shows.current {hash : Hash} {strings : List Bytes} (shows : disk.Shows goal previous)
    (separates : hash.Separates strings) (distinct : (previous.map Entry.name).Nodup)
    (closed : ∀ entry ∈ previous, Entry.Sealed hash entry)
    (closed' : ∀ entry ∈ entries, Entry.Sealed hash entry)
    (within : Entry.hashedEach previous ⊆ strings)
    (within' : Entry.hashedEach entries ⊆ strings) : Current disk goal previous entries := by
  intro path before reached entry reached' there same bytes written content stands
  rw [Entry.lastReached?_eq (fun _ _ _ closed => closed.inside) distinct closed] at reached
  obtain ⟨old, oldWritten⟩ := Option.isSome_iff_exists.mp there
  have filled : path ≠ [] := fun empty => by
    rw [empty] at reached
    cases reached
  have shown := shows path
  rw [stands, Entry.shown?, if_neg filled, Option.mem_def.mp reached, Option.map_some,
    Entry.thing_of_bytes oldWritten] at shown
  have inner : ∀ name children digest, Entry.Sealed hash (.directory name children digest) →
      ∀ child ∈ children, Entry.Sealed hash child := fun _ _ _ closed => closed.inside.2
  obtain ⟨digest, held⟩ := (Entry.reached?_mem inner closed reached).digest_bytes oldWritten
  obtain ⟨digest', held'⟩ := (Entry.reached?_mem inner closed' reached').digest_bytes written
  have equal : old = bytes := by
    refine separates old (within (Entry.hashed_of_reached? reached held)) bytes
      (within' (Entry.hashed_of_reached? reached' held')) ?_
    rw [← digest, ← digest', same]
  cases shown
  exact equal

/-- The same for one of the entries. -/
theorem Current.alone (current : Current disk goal previous entries)
    (distinct : (entries.map Entry.name).Nodup) {entry : Entry} (present : entry ∈ entries) :
    Current disk goal previous [entry] := by
  intro path before reached entry' reached'
  obtain ⟨rest, rfl⟩ := Entry.reached?_only reached'
  rw [← Entry.reached?_alone distinct present] at reached'
  exact current (entry.name :: rest) before reached entry' reached'

/-- The same in a directory. -/
theorem Current.inside {name : Name} {children : List Entry} {digest : Digest}
    (current : Current disk goal previous [.directory name children digest]) :
    Current disk (goal ++ [name]) (published (Entry.lastNamed? previous name)) children := by
  intro path before reached entry reached' there same bytes written content stands
  have filled : path ≠ [] := fun empty => by
    rw [empty] at reached
    cases reached
  refine current (name :: path) before ?_ entry ?_ there same bytes written content
    (by simpa using stands)
  · rwa [Entry.lastReached?, if_neg filled]
  · rwa [Entry.reached?_inside name children digest filled]

end Disk

end Depot

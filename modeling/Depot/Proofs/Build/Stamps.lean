import Depot.Proofs.Build.Incremental
import Depot.Proofs.Build.Inheritance
import Depot.Proofs.Build.Output

set_option autoImplicit false

namespace Depot

namespace FileSystem

/-- The stamps of all nodes that have not been deleted, with the contents of those that are files.
-/
def sightings (fs : FileSystem) : List (Stamp × Option Bytes) :=
  ((List.range fs.nodes.length).filter fs.isLive).map fun id => (fs.stamp id, (fs.read id).toOption)

theorem mem_sightings {fs : FileSystem} {id : NodeId} (alive : fs.isLive id = true) :
    (fs.stamp id, (fs.read id).toOption) ∈ fs.sightings := by
  have known : id ∈ (List.range fs.nodes.length).filter fs.isLive :=
    List.mem_filter.mpr ⟨List.mem_range.mpr (lt_length_of_isLive alive), alive⟩
  exact List.mem_map_of_mem (f := fun id => (fs.stamp id, (fs.read id).toOption)) known

end FileSystem

namespace Workspace

/-- The same for all file systems. One that is not there has a root like a new one. -/
def sightings (workspace : Workspace) : List (Stamp × Option Bytes) :=
  (workspace ++ [FileSystem.empty]).flatMap FileSystem.sightings

theorem mem_sightings {workspace : Workspace} {source : Source}
    (alive : workspace.isLive source = true) :
    (workspace.stamp source, (workspace.read source).toOption) ∈ workspace.sightings := by
  have home : workspace.home source ∈ workspace ++ [FileSystem.empty] := by
    simp only [Workspace.home, volume, List.getD_eq_getElem?_getD]
    cases found : workspace[source.volume]? with
    | none => exact List.mem_append_right _ List.mem_cons_self
    | some fs => exact List.mem_append_left _ (List.mem_of_getElem? found)
  exact List.mem_flatMap.mpr ⟨_, home, FileSystem.mem_sightings alive⟩

end Workspace

namespace Entry

/-- Every file in an entry was seen with the stamp that it has. -/
inductive Honest (seen : List (Stamp × Option Bytes)) : Entry → Prop where
  | file {name : Name} {content : Bytes} {stamp : Stamp} {digest : Digest}
    (sighted : (stamp, some content) ∈ seen) : Honest seen (.file name content stamp digest)
  | directory {name : Name} {children : List Entry} {digest : Digest}
    (inner : ∀ child ∈ children, Honest seen child) : Honest seen (.directory name children digest)
  | archive {name : Name} {members : List Entry} {bytes : Bytes} {digest : Digest}
    (inner : ∀ member ∈ members, Honest seen member) :
    Honest seen (.archive name members bytes digest)

theorem Honest.mono {seen more : List (Stamp × Option Bytes)} (subset : seen ⊆ more) {entry : Entry}
    (honest : Honest seen entry) : Honest more entry := by
  induction honest with
  | file sighted => exact .file (subset sighted)
  | directory _ ih => exact .directory ih
  | archive _ ih => exact .archive ih

open Archive (Compression)

/-- An entry that tells the truth: about its digests, about what was seen under its stamps, and
about the bytes of its archives. What was hashed for it is among the strings. -/
structure Sound (hash : Hash) (codec : Compression.Codec) (compression : Compression)
    (seen : List (Stamp × Option Bytes)) (strings : List Bytes) (entry : Entry) : Prop where
  closed : Sealed hash entry
  honest : Honest seen entry
  encoded : Encoded codec compression entry
  hashed : entry.hashed ⊆ strings

/-- An entry that is sound once what was hashed for it is among the strings. -/
structure SoundOver (hash : Hash) (codec : Compression.Codec) (compression : Compression)
    (seen : List (Stamp × Option Bytes)) (strings : List Bytes) (entry : Entry) : Prop where
  closed : Sealed hash entry
  honest : Honest seen entry
  encoded : entry.hashed ⊆ strings → Encoded codec compression entry

section Sound

variable {hash : Hash} {codec : Compression.Codec} {compression : Compression}
  {seen more : List (Stamp × Option Bytes)} {strings : List Bytes} {entry : Entry}

theorem SoundOver.sound (held : SoundOver hash codec compression seen strings entry)
    (hashed : entry.hashed ⊆ strings) : Sound hash codec compression seen strings entry :=
  ⟨held.closed, held.honest, held.encoded hashed, hashed⟩

theorem Sound.soundOver (sound : Sound hash codec compression seen strings entry) :
    SoundOver hash codec compression seen strings entry :=
  ⟨sound.closed, sound.honest, fun _ => sound.encoded⟩

theorem Sound.mono (subset : seen ⊆ more)
    (sound : Sound hash codec compression seen strings entry) :
    Sound hash codec compression more strings entry :=
  ⟨sound.closed, sound.honest.mono subset, sound.encoded, sound.hashed⟩

end Sound

end Entry

namespace Assembler

open Entry (Sealed Encoded Honest)
open Slot (Separate)

variable {assembler : Assembler} {scope : Scope} {path : Path}

variable {seen : List (Stamp × Option Bytes)} {strings : List Bytes}

abbrev Sound (assembler : Assembler) : List (Stamp × Option Bytes) → List Bytes → Entry → Prop :=
  Entry.Sound assembler.hash assembler.codec assembler.compression

/-- Entries that are sound for an assembler once what was hashed for them is among the strings. -/
abbrev SoundOver (assembler : Assembler) : List (Stamp × Option Bytes) → List Bytes →
    Entry → Prop :=
  Entry.SoundOver assembler.hash assembler.codec assembler.compression

theorem trusted_of_sound {before? : Option Entry}
    (sound : ∀ before ∈ before?, Sound assembler seen strings before) :
    ∀ before ∈ before?, Trusted assembler strings before :=
  fun before held => ⟨(sound before held).encoded, (sound before held).hashed⟩

theorem inside?_sound {kind : ContainerKind} {before : Entry} {members : List Entry}
    (sound : Sound assembler seen strings before)
    (held : inside? kind (some before) = some members) :
    ∀ member ∈ members, Sound assembler seen strings member := by
  intro member present
  have here : ∀ before' ∈ some before, Sound assembler seen strings before' := fun _ same =>
    Option.some.inj same ▸ sound
  have closed := inside?_closed (fun before held => (here before held).closed) members held
  have trusted := inside?_trusted (trusted_of_sound here) members held member present
  refine ⟨closed member present, ?_, trusted.encoded, trusted.hashed⟩
  have honest := sound.honest
  cases honest <;> cases kind <;> cases held
  · next inner => exact inner member present
  · next inner => exact inner member present

theorem sound_wrap (lengths : ∀ content, (assembler.hash content).bytes.length = 32)
    (separates : assembler.hash.Separates strings) {kind : ContainerKind} {name : Name}
    {before? : Option Entry} {members : List Entry} {result : Entry} {effort : Effort}
    (sound : ∀ before ∈ before?, Sound assembler seen strings before)
    (distinct : (members.map Entry.name).Nodup)
    (inner : ∀ member ∈ members, SoundOver assembler seen strings member)
    (made : assembler.wrap kind path name before? members = .ok (result, effort)) :
    SoundOver assembler seen strings result := by
  have closed : ∀ member ∈ members, Sealed assembler.hash member := fun member present =>
    (inner member present).closed
  have honest : ∀ member ∈ members, Honest seen member := fun member present =>
    (inner member present).honest
  have encoded (hashed : Entry.hashedEach members ⊆ strings) (member : Entry)
      (present : member ∈ members) : Encoded assembler.codec assembler.compression member :=
    (inner member present).encoded (List.Subset.trans (Entry.hashed_subset present) hashed)
  cases kind with
  | directory =>
    cases made
    refine ⟨.directory distinct closed, .directory honest, fun hashed => .directory ?_⟩
    exact encoded (List.cons_subset.mp hashed).2
  | archive =>
    obtain ⟨bytes, work, archived, written⟩ := archive_encloses lengths path name
      (fun before held => (sound before held).closed) distinct closed
    have same : result = .ofArchive assembler.hash name members bytes :=
      congrArg Prod.fst (Except.ok.inj (made.symm.trans archived))
    subst same
    refine ⟨.archive distinct closed, .archive honest, fun hashed => ?_⟩
    have members' := (List.cons_subset.mp hashed).2
    exact .archive
      (written strings separates members' (trusted_of_sound sound))
      (encoded (List.cons_subset.mp members').2)

/-- Sound entries are handed on in every build. -/
theorem sound_inherits (lengths : ∀ content, (assembler.hash content).bytes.length = 32)
    (separates : assembler.hash.Separates strings)
    (sighted : assembler.workspace.sightings ⊆ seen) :
    Inherits assembler (Sound assembler seen strings) (SoundOver assembler seen strings) where
  kept _ sound := sound.soundOver
  inside _ _ _ sound held := inside?_sound sound held
  file name source content read := by
    have alive := (Workspace.read_eq_ok.mp read).1
    have sighting := sighted (Workspace.mem_sightings alive)
    rw [read] at sighting
    exact ⟨.file .., .file sighting, fun _ => .file ..⟩
  wrap _ _ _ _ _ _ _ sound distinct inner made :=
    sound_wrap lengths separates sound distinct inner made

/-- No stamp that was seen stands for another content now. -/
def Unequivocal (seen : List (Stamp × Option Bytes)) (workspace : Workspace) : Prop :=
  ∀ past ∈ seen, ∀ now ∈ workspace.sightings, past.1 = now.1 → past.2 = now.2

instance (seen : List (Stamp × Option Bytes)) (workspace : Workspace) :
    Decidable (Unequivocal seen workspace) :=
  inferInstanceAs (Decidable (∀ past ∈ seen, ∀ now ∈ workspace.sightings,
    past.1 = now.1 → past.2 = now.2))

/-- A file that is used again has what its source holds now. -/
theorem file_current (unequivocal : Unequivocal seen assembler.workspace) {name : Name}
    {source : Source} {before : Entry} (named : before.name = name)
    (closed : Sealed assembler.hash before) (honest : Honest seen before)
    (current : assembler.current? .stale source (some before) = some before) :
    assembler.complete? (.file name source) = some before := by
  obtain ⟨_, alive, name', content, digest, rfl⟩ := current?_eq_some current
  cases closed
  cases honest with
  | file sighted =>
    have same := unequivocal _ sighted _ (Workspace.mem_sightings alive) rfl
    simp only [complete?]
    cases read : assembler.workspace.read source with
    | error fault =>
      rw [read] at same
      cases same
    | ok content' =>
      rw [read] at same
      cases same
      exact congrArg (fun name => some (Entry.ofFile assembler.hash name content _)) named.symm

/-- A build that goes by stamps gives a slot the entry of a build of everything, if archives hold
what their members give. -/
def Matches (assembler : Assembler) (seen : List (Stamp × Option Bytes)) (strings : List Bytes)
    (slot : Slot) : Prop :=
  ∀ path before? result effort,
    (∀ before ∈ before?, before.name = slot.name ∧ Sound assembler seen strings before) →
    assembler.entry .stale path before? slot = .ok (result, effort) →
    Encoded assembler.codec assembler.compression result → assembler.complete? slot = some result

theorem entries_stale {slots : List Slot} {previous : Option (List Entry)}
    (each : ∀ slot ∈ slots, Matches assembler seen strings slot)
    (sound : ∀ members ∈ previous, ∀ member ∈ members, Sound assembler seen strings member) :
    ∀ {results : List Entry} {effort : Effort},
      assembler.entries .stale path previous slots = .ok (results, effort) →
      (∀ result ∈ results, Encoded assembler.codec assembler.compression result) →
      List.Forall₂ (fun slot entry => assembler.complete? slot = some entry) slots results := by
  induction slots with
  | nil =>
    intro results effort built _
    cases built
    exact .nil
  | cons slot rest ih =>
    intro results effort built encoded
    obtain ⟨first, work, others, more, here, there, rfl, rfl⟩ := entries_cons_eq_ok.mp built
    have later := ih (fun slot present => each slot (List.mem_cons_of_mem _ present)) there
      fun result present => encoded result (List.mem_append_right _ present)
    cases here with
    | built _ made =>
      refine .cons (each slot List.mem_cons_self _ _ _ _ (fun before found => ?_) made ?_) later
      · exact ⟨former_name found, former_inherits sound slot before found⟩
      · exact encoded _ List.mem_cons_self
    | kept unreached _ => cases unreached
    | supplied unreached _ _ _ => cases unreached
    | skipped unreached _ => cases unreached

theorem enclose?_of_wrap {kind : ContainerKind} {name : Name} {before? : Option Entry}
    {members : List Entry} {result : Entry} {effort : Effort}
    (made : assembler.wrap kind path name before? members = .ok (result, effort))
    (encoded : Encoded assembler.codec assembler.compression result) :
    assembler.enclose? kind name members = some result ∧
      ∀ member ∈ members, Encoded assembler.codec assembler.compression member := by
  cases kind with
  | directory =>
    cases made
    cases encoded with
    | directory inner => exact ⟨rfl, inner⟩
  | archive =>
    obtain ⟨bytes, rfl⟩ := archive_eq_ok made
    cases encoded with
    | archive written inner => exact ⟨by simp [enclose?, written], inner⟩

/-- By induction on the slot. -/
theorem matches_complete (unequivocal : Unequivocal seen assembler.workspace) (slot : Slot) :
    Matches assembler seen strings slot := by
  induction slot using Slot.induct with
  | file name source =>
    intro path before? result effort sound made _
    rcases file_eq_ok.mp made with ⟨current, _⟩ | ⟨_, _, content, read, rfl⟩
    · obtain ⟨rfl, _⟩ := current?_eq_some current
      obtain ⟨named, here⟩ := sound result rfl
      exact file_current unequivocal named here.closed here.honest current
    · simp [complete?, read]
  | failed kind name touches fault =>
    intro path before? result effort _ made
    exact absurd made not_container_error
  | container kind name touches slots ih =>
    intro path before? result effort sound made encoded
    obtain ⟨members, work, wrapping, built, wrapped, _⟩ := container_eq_ok.mp made
    obtain ⟨enclosed, inner⟩ := enclose?_of_wrap wrapped encoded
    refine complete?_container.mpr ⟨members, entries_stale ih (fun olds held => ?_) built inner,
      enclosed⟩
    cases before? with
    | none => cases kind <;> cases held
    | some before => exact inside?_sound (sound before rfl).2 held

/-- A build that goes by stamps gives the output of a build of everything. -/
theorem output_stale (unequivocal : Unequivocal seen assembler.workspace) {plan : Plan}
    {previous : Option (List Entry)}
    (sound : ∀ members ∈ previous, ∀ member ∈ members, Sound assembler seen strings member)
    {results : List Entry} {effort : Effort}
    (built : assembler.output .stale plan previous = .ok (results, effort))
    (encoded : ∀ result ∈ results, Encoded assembler.codec assembler.compression result) :
    assembler.full? plan = some results := by
  obtain ⟨slots, resolved, walked⟩ := output_eq_ok.mp built
  simp only [full?, resolved]
  exact assembler.completeEach?_eq_some.mpr
    (entries_stale (fun slot _ => matches_complete unequivocal slot) sound walked encoded)

end Assembler

end Depot

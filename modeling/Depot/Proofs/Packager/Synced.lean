import Depot.Proofs.Build.Names
import Depot.Proofs.Disk.Neighbours
import Depot.Proofs.Packager.Atomicity
import Depot.Proofs.Packager.Representation

set_option autoImplicit false

namespace Depot

open Disk (Location Starts Ready Confined Legible)
open Disk.Location (place)

/-- The names of all artifacts can be parts of a location, and those in their plans are texts. -/
structure Registry.Orderly (registry : Registry) : Prop where
  named : ∀ artifact ∈ registry.artifacts.values, ∃ name, Name.ofString artifact.name = .ok name
  textual : registry.Textual

/-- Entries that can be written out as they are, with the digests of what they hold. -/
structure Entry.Fit (hash : Hash) (entries : List Entry) : Prop where
  distinct : (entries.map Entry.name).Nodup
  closed : ∀ entry ∈ entries, entry.Sealed hash
  textual : ∀ entry ∈ entries, entry.Textual

theorem Entry.Fit.plain {hash : Hash} {entries : List Entry} (fit : Entry.Fit hash entries) :
    ∀ entry ∈ entries, entry.Plain :=
  fun entry present => (fit.closed entry present).plain (fit.textual entry present)

namespace Packager

variable {job : Job} {packager : Packager} {disk disk' : Disk} {artifact : Artifact}
  {directory : Location}

/-- What was hashed for the outputs is among the given byte strings. -/
def Within (strings : List Bytes) (packager : Packager) : Prop :=
  ∀ name output, packager.outputs.find? name = some output →
    Entry.listing output.entries :: Entry.hashedEach output.entries ⊆ strings

theorem within_of_hashed {strings : List Bytes} (hashed : packager.hashed ⊆ strings) :
    Within strings packager :=
  fun _ output found _ held =>
    hashed (List.mem_flatMap.mpr ⟨output, NameMap.mem_values found, held⟩)

/-- Every output can be written out. -/
def Fit (hash : Hash) (packager : Packager) : Prop :=
  ∀ name output, packager.outputs.find? name = some output → Entry.Fit hash output.entries

/-- The directory of every artifact with an output holds exactly this output, if the packager does
not doubt it. -/
def Synced (directory : Location) (packager : Packager) (disk : Disk) : Prop :=
  ∀ name output, packager.outputs.find? name = some output →
    ∃ part, Name.ofString name = .ok part ∧
      (name ∉ packager.unsynced → disk.Shows (place disk.working directory ++ [part])
        output.entries)

/-- What is built from outputs that can be written out can be written out itself. -/
theorem Fit.built (fit : Fit job.hash packager) (texts : job.workspace.Textual)
    (orderly : job.registry.Orderly) (registered : artifact ∈ job.registry.artifacts.values)
    {entries : List Entry} {effort : Effort}
    (built : (job.assembler packager.config.compression artifact.name).output
      job.scope artifact.plan
      (packager.current? artifact) = .ok (entries, effort)) : Entry.Fit job.hash entries := by
  have olds : ∀ members ∈ packager.current? artifact, Entry.Fit job.hash members := by
    intro members current
    exact fit artifact.name _ (current?_eq_some.mp current)
  obtain ⟨distinct, closed⟩ := Assembler.output_inherits (Assembler.sealed_inherits _)
    (fun members current => (olds members current).closed) built
  refine ⟨distinct, closed, ?_⟩
  exact @Assembler.output_textual (job.assembler packager.config.compression artifact.name) texts
    orderly.textual _ (orderly.textual artifact registered) _ _
    (fun members current => (olds members current).textual) _ _ built

theorem Fit.update (fit : Fit job.hash packager) (texts : job.workspace.Textual)
    (orderly : job.registry.Orderly) (registered : artifact ∈ job.registry.artifacts.values)
    (disk : Disk) : Fit job.hash (update job packager disk artifact).2.1 := by
  intro name output found
  by_cases same : name = artifact.name
  · subst same
    rcases update_outputs job packager disk artifact with kept | ⟨entries, effort, built, stored⟩
    · exact fit artifact.name output (kept.symm.trans found)
    · cases stored.symm.trans found
      exact fit.built texts orderly registered built
  · rw [(update_frame job packager disk artifact).2 name same] at found
    exact fit name output found

theorem find?_store {entries : List Entry} :
    (packager.store artifact entries).outputs.find? artifact.name =
      some ⟨artifact.revision, entries⟩ := by
  simp [store, NameMap.find?_insert]

theorem contains_doubted : (packager.doubt artifact).unsynced.contains artifact.name = true := by
  unfold doubt
  split
  · next doubted => exact doubted
  · simp

/-- The output that the directory of an artifact is known to hold. -/
def trusted (packager : Packager) (artifact : Artifact) : List Entry :=
  if packager.unsynced.contains artifact.name then [] else (packager.current? artifact).getD []

/-- How an update can end for the disk: nothing is built, or what is built is what is known to be
there, or it is published, and the disk refuses or takes it. -/
inductive Lands (job : Job) (packager : Packager) (disk : Disk) (artifact : Artifact)
    (directory : Location) : Except PackagerFault Report × Packager × Disk → Prop where
  | unbuilt (fault : BuildFault) :
    Lands job packager disk artifact directory (.error (.build fault), packager, disk)
  | nothing (absent : packager.current? artifact = none) :
    Lands job packager disk artifact directory (.ok .none, packager, disk)
  | unchanged {previous entries : List Entry} {effort : Effort} (report : Report)
    (built : (job.assembler packager.config.compression artifact.name).output
      job.scope artifact.plan
      (packager.current? artifact) = .ok (entries, effort))
    (current : packager.current? artifact = some previous)
    (same : Entry.listDigest job.hash previous = Entry.listDigest job.hash entries)
    (certain : artifact.name ∉ packager.unsynced) :
    Lands job packager disk artifact directory (.ok report, packager.store artifact entries, disk)
  | refused {entries : List Entry} {effort : Effort} {fault : Disk.Fault} {disk' : Disk}
    (built : (job.assembler packager.config.compression artifact.name).output
      job.scope artifact.plan
      (packager.current? artifact) = .ok (entries, effort))
    (ended : Disk.publish (directory.join (Bytes.ofString artifact.name))
      (packager.trusted artifact)
      entries disk = .error fault disk') :
    Lands job packager disk artifact directory
      (.error (.disk fault), packager.doubt artifact, disk')
  | written {entries : List Entry} {effort : Effort} {count : Nat} {disk' : Disk} (report : Report)
    (built : (job.assembler packager.config.compression artifact.name).output
      job.scope artifact.plan
      (packager.current? artifact) = .ok (entries, effort))
    (ended : Disk.publish (directory.join (Bytes.ofString artifact.name))
      (packager.trusted artifact)
      entries disk = .ok count disk') :
    Lands job packager disk artifact directory (.ok report, packager.store artifact entries, disk')

theorem update_lands (published : packager.config.outputDirectory = some directory) (job : Job)
    (disk : Disk) (artifact : Artifact) :
    Lands job packager disk artifact directory (update job packager disk artifact) := by
  cases built : (job.assembler packager.config.compression artifact.name).output job.scope
      artifact.plan (packager.current? artifact) with
  | error fault =>
    simp only [update, built]
    exact .unbuilt fault
  | ok result =>
    obtain ⟨entries, effort⟩ := result
    simp only [update, built]
    split
    · next skipped => exact .nothing (Option.isNone_iff_eq_none.mp skipped.1)
    · generalize unchanged : ((packager.current? artifact).any fun previous =>
        Entry.listDigest job.hash previous = Entry.listDigest job.hash entries) = same
      have publishes : packager.publish artifact.name (packager.current? artifact) entries same =
          if same && !packager.unsynced.contains artifact.name then pure 0
          else Disk.publish (directory.join (Bytes.ofString artifact.name))
            (packager.trusted artifact)
            entries := by
        rw [publish, published, trusted]
      rw [publishes]
      by_cases certain : (same && !packager.unsynced.contains artifact.name) = true
      · rw [if_pos certain]
        obtain ⟨rfl, known⟩ : same = true ∧ artifact.name ∉ packager.unsynced := by
          simpa using certain
        obtain ⟨previous, current, equal⟩ := (Option.any_eq_true ..).mp unchanged
        exact .unchanged _ built current (by simpa using equal) known
      · rw [if_neg certain]
        split
        · next ended => exact .refused built ended
        · next ended => exact .written _ built ended

section Update

variable {part : Name} (named : Name.ofString artifact.name = .ok part)

include named

theorem part_unique {name : String} (named' : Name.ofString name = .ok part) :
    name = artifact.name := by
  apply Bytes.ofString_injective
  rw [← Name.bytes_of_ofBytes named', Name.bytes_of_ofBytes named]

/-- Whether an update is refused or not, nothing changes on the disk but in the directory of the
artifact and on the way there. -/
theorem update_confined (published : packager.config.outputDirectory = some directory)
    (ready : Ready directory disk) (fit : Fit job.hash packager) (texts : job.workspace.Textual)
    (orderly : job.registry.Orderly) (registered : artifact ∈ job.registry.artifacts.values) :
    Confined directory part disk (update job packager disk artifact).2.2 := by
  have lands := update_lands published job disk artifact
  have bytes : Bytes.ofString artifact.name = part.bytes := (Name.bytes_of_ofBytes named).symm
  generalize update job packager disk artifact = outcome at lands ⊢
  cases lands with
  | unbuilt _ => exact .refl disk
  | nothing _ => exact .refl disk
  | unchanged _ _ _ _ _ => exact .refl disk
  | refused built ended =>
    rw [bytes] at ended
    have confined := @Ready.confined directory disk part _ (packager.trusted artifact) ready
      (fit.built texts orderly registered built).plain
    rwa [Disk.afterwards, ended] at confined
  | written _ built ended =>
    rw [bytes] at ended
    have confined := @Ready.confined directory disk part _ (packager.trusted artifact) ready
      (fit.built texts orderly registered built).plain
    rwa [Disk.afterwards_of_ok ended] at confined

theorem Synced.own (synced : Synced directory packager disk) {output : Output}
    (found : packager.outputs.find? artifact.name = some output)
    (certain : artifact.name ∉ packager.unsynced) :
    disk.Shows (place disk.working directory ++ [part]) output.entries := by
  obtain ⟨other, named', shows⟩ := synced artifact.name output found
  cases named.symm.trans named'
  exact shows certain

/-- What happens in the directory of one artifact keeps those of all others. -/
theorem Synced.next (synced : Synced directory packager disk) (ready : Ready directory disk)
    (confined : Confined directory part disk disk') {packager' : Packager}
    (others : ∀ name, name ≠ artifact.name → Agree packager' packager name)
    (own : ∀ output, packager'.outputs.find? artifact.name = some output →
      artifact.name ∉ packager'.unsynced →
        disk'.Shows (place disk.working directory ++ [part]) output.entries) :
    Synced directory packager' disk' := by
  intro name output found
  rw [Disk.Bounded.working confined]
  by_cases same : name = artifact.name
  · subst same
    exact ⟨part, named, own output found⟩
  · rw [(others name same).output] at found
    obtain ⟨other, named', shows⟩ := synced name output found
    refine ⟨other, named', fun certain => ?_⟩
    have certain' : name ∉ packager.unsynced := by
      rw [← List.contains_iff_mem, ← (others name same).unsynced, List.contains_iff_mem]
      exact certain
    refine (shows certain').lasts ready rfl confined fun equal => ?_
    exact same (part_unique named (equal ▸ named'))

/-- What is known to be there need not be written again, unless byte strings collide. -/
theorem Synced.trusted {hash : Hash} {strings : List Bytes} (separates : hash.Separates strings)
    (synced : Synced directory packager disk) (fit : Fit hash packager)
    (before : Within strings packager) {entries : List Entry} (fit' : Entry.Fit hash entries)
    (within : Entry.hashedEach entries ⊆ strings) :
    disk.Current (place disk.working directory ++ [part]) (packager.trusted artifact) entries := by
  unfold Packager.trusted
  by_cases doubted : packager.unsynced.contains artifact.name = true
  · rw [if_pos doubted]
    exact .of_nothing _ _ _
  · rw [if_neg doubted]
    cases current : packager.current? artifact with
    | none => exact .of_nothing _ _ _
    | some previous =>
      have found := current?_eq_some.mp current
      have within' := (List.cons_subset.mp (before artifact.name _ found)).2
      exact (synced.own named found (by simpa using doubted)).current separates
        (fit artifact.name _ found).distinct (fit artifact.name _ found).closed fit'.closed
          within' within

/-- After an update the directories hold what they should again, unless byte strings collide. -/
theorem update_synced (published : packager.config.outputDirectory = some directory)
    (ready : Ready directory disk) (fit : Fit job.hash packager) (texts : job.workspace.Textual)
    (orderly : job.registry.Orderly) (registered : artifact ∈ job.registry.artifacts.values)
    (lengths : ∀ content, (job.hash content).bytes.length = 32) {strings : List Bytes}
    (separates : job.hash.Separates strings) (before : Within strings packager)
    (within : Within strings (update job packager disk artifact).2.1)
    (synced : Synced directory packager disk) :
    Synced directory (update job packager disk artifact).2.1
      (update job packager disk artifact).2.2 := by
  have confined := update_confined named published ready fit texts orderly registered
  refine synced.next named ready confined
    (fun name apart => update_agrees job packager disk artifact apart) ?_
  have lands := update_lands published job disk artifact
  have bytes : Bytes.ofString artifact.name = part.bytes := (Name.bytes_of_ofBytes named).symm
  generalize update job packager disk artifact = outcome at within lands ⊢
  intro output found certain
  cases lands with
  | unbuilt _ => exact synced.own named found certain
  | nothing _ => exact synced.own named found certain
  | unchanged report built current same known =>
    rw [find?_store] at found
    cases found
    have stored := current?_eq_some.mp current
    have members := Entry.toMembers_of_listDigest lengths separates
      (fit artifact.name _ stored).closed
      (fit.built texts orderly registered built).closed (before artifact.name _ stored)
      (within artifact.name _ find?_store) same
    intro path
    rw [synced.own named stored known path]
    exact Entry.shown?_congr members path
  | refused built ended => exact absurd (List.contains_iff_mem.mp contains_doubted) certain
  | written report built ended =>
    rw [find?_store] at found
    cases found
    rw [bytes] at ended
    have fit' := fit.built texts orderly registered built
    have current := synced.trusted named separates fit before fit'
      (List.cons_subset.mp (within artifact.name _ find?_store)).2
    exact ready.shows (Name.textual_of_ofString named) fit'.plain fit'.distinct current ended

end Update

theorem Agree.trans {first second third : Packager} {name : String}
    (later : Agree third second name) (early : Agree second first name) : Agree third first name :=
  ⟨later.config.trans early.config, later.output.trans early.output,
    later.unsynced.trans early.unsynced⟩

theorem updateEach_agrees {artifacts : List Artifact} {name : String}
    (absent : name ∉ artifacts.map Artifact.name) (packager : Packager) (disk : Disk) :
    Agree (updateEach job packager disk artifacts).2.1 packager name := by
  induction artifacts generalizing packager disk with
  | nil => exact ⟨rfl, rfl, rfl⟩
  | cons artifact rest ih =>
    simp only [List.map_cons, List.mem_cons, not_or] at absent
    simp only [updateEach]
    exact (ih absent.2 _ _).trans (update_agrees job packager disk artifact absent.1)

/-- Updates leave the disk ready for more of them. -/
theorem updateEach_ready (texts : job.workspace.Textual) (orderly : job.registry.Orderly)
    {artifacts : List Artifact} (registered : artifacts ⊆ job.registry.artifacts.values)
    (published : packager.config.outputDirectory = some directory) (ready : Ready directory disk)
    (fit : Fit job.hash packager) :
    Ready directory (updateEach job packager disk artifacts).2.2 ∧
      Fit job.hash (updateEach job packager disk artifacts).2.1 ∧
      (updateEach job packager disk artifacts).2.1.config = packager.config ∧
      (updateEach job packager disk artifacts).2.2.working = disk.working := by
  induction artifacts generalizing packager disk with
  | nil => exact ⟨ready, fit, rfl, rfl⟩
  | cons artifact rest ih =>
    obtain ⟨here, later⟩ := List.cons_subset.mp registered
    obtain ⟨part, named⟩ := orderly.named artifact here
    have confined := update_confined named published ready fit texts orderly here
    have config := (update_frame job packager disk artifact).1
    simp only [updateEach]
    obtain ⟨ready', fit', config', working⟩ := ih later (config ▸ published) (ready.lasts confined)
      (fit.update texts orderly here disk)
    exact ⟨ready', fit', config'.trans config, working.trans (Disk.Bounded.working confined)⟩

/-- After all updates the directories hold what they should again, by induction on the artifacts. -/
theorem updateEach_synced (texts : job.workspace.Textual) (orderly : job.registry.Orderly)
    (lengths : ∀ content, (job.hash content).bytes.length = 32) {strings : List Bytes}
    (separates : job.hash.Separates strings) {artifacts : List Artifact}
    (registered : artifacts ⊆ job.registry.artifacts.values)
    (distinct : (artifacts.map Artifact.name).Nodup)
    (published : packager.config.outputDirectory = some directory) (ready : Ready directory disk)
    (fit : Fit job.hash packager) (before : Within strings packager)
    (within : Within strings (updateEach job packager disk artifacts).2.1)
    (synced : Synced directory packager disk) :
    Synced directory (updateEach job packager disk artifacts).2.1
      (updateEach job packager disk artifacts).2.2 := by
  induction artifacts generalizing packager disk with
  | nil => exact synced
  | cons artifact rest ih =>
    obtain ⟨here, later⟩ := List.cons_subset.mp registered
    obtain ⟨fresh, distinct⟩ := List.nodup_cons.mp distinct
    obtain ⟨part, named⟩ := orderly.named artifact here
    have confined := update_confined named published ready fit texts orderly here
    obtain ⟨config, frame⟩ := update_frame job packager disk artifact
    simp only [updateEach] at within ⊢
    -- What the artifact gets here it keeps, so that it is among what is hashed at the end.
    have between : Within strings (update job packager disk artifact).2.1 := by
      intro name output found
      by_cases same : name = artifact.name
      · subst same
        exact within artifact.name output
          ((@updateEach_agrees job rest artifact.name fresh _ _).output.trans found)
      · exact before name output ((frame name same).symm.trans found)
    exact ih later distinct (config ▸ published) (ready.lasts confined)
      (fit.update texts orderly here disk) between within
      (update_synced named published ready fit texts orderly here lengths separates before
        between synced)

/-- An artifact that got its output in an update that succeeds is not doubted. -/
theorem updateEach_certain {artifacts : List Artifact}
    (distinct : (artifacts.map Artifact.name).Nodup)
    (published : packager.config.outputDirectory = some directory) :
    List.Forall₂ (fun artifact result => (∃ report, result = .ok report) →
        (updateEach job packager disk artifacts).2.1.current? artifact ≠ none →
          artifact.name ∉ (updateEach job packager disk artifacts).2.1.unsynced)
      artifacts (updateEach job packager disk artifacts).1 := by
  induction artifacts generalizing packager disk with
  | nil => exact .nil
  | cons artifact rest ih =>
    obtain ⟨fresh, distinct⟩ := List.nodup_cons.mp distinct
    have config := (update_frame job packager disk artifact).1
    simp only [updateEach]
    refine .cons ?_ (ih distinct (config ▸ published))
    rintro ⟨report, succeeded⟩ present
    have agree := @updateEach_agrees job rest artifact.name fresh
      (update job packager disk artifact).2.1 (update job packager disk artifact).2.2
    rw [current?_congr agree.output] at present
    rw [← List.contains_iff_mem, agree.unsynced, List.contains_iff_mem]
    have lands := update_lands published job disk artifact
    generalize update job packager disk artifact = outcome at succeeded present lands ⊢
    cases lands with
    | unbuilt _ => cases succeeded
    | nothing absent => exact absurd absent present
    | refused _ _ => cases succeeded
    | unchanged _ _ _ _ _ => simp [store]
    | written _ _ _ => simp [store]

end Packager

end Depot

import Depot.Proofs.Build.Names
import Depot.Proofs.Build.Walk
import Depot.Proofs.Expectation.Match
import Depot.Proofs.Packager.Everything

set_option autoImplicit false

namespace Depot

/-- A call on a builder of expectations. -/
inductive ExpectationBuilder.Call where
  | file (text : String) (content : Bytes)
  | enter (kind : ContainerKind) (text : String)
  | leave

namespace ExpectationBuilder

def call (builder : ExpectationBuilder) : Call → ExpectationBuilder
  | .file text content => builder.file text content
  | .enter kind text => builder.enter kind text
  | .leave => builder.leave

def calls (builder : ExpectationBuilder) (made : List Call) : ExpectationBuilder :=
  made.foldl call builder

theorem calls_cons (builder : ExpectationBuilder) (first : Call) (rest : List Call) :
    builder.calls (first :: rest) = (builder.call first).calls rest :=
  rfl

theorem calls_append (builder : ExpectationBuilder) (first second : List Call) :
    builder.calls (first ++ second) = (builder.calls first).calls second :=
  List.foldl_append

section Call

variable {kind : ContainerKind} {text : String} {name : Name}
  (named : Name.ofString text = .ok name)
  (before : Expectation) (frames : List (Outline.Frame ExpectedFile))

include named

theorem call_file (content : Bytes) :
    call ⟨⟨before, frames⟩, none⟩ (.file text content) =
      ⟨⟨before ++ [.leaf ⟨name, content⟩], frames⟩, none⟩ := by
  simp only [call, file, named]
  rfl

/-- A container of a new name is filled and left again. -/
theorem calls_container {inner : Expectation} {made : List Call} (later : List Call)
    (absent : ∀ children, .container kind name children ∉ before)
    (fills : ∀ frames, calls ⟨⟨[], frames⟩, none⟩ made = ⟨⟨inner, frames⟩, none⟩) :
    calls ⟨⟨before, frames⟩, none⟩ (.enter kind text :: (made ++ .leave :: later)) =
      calls ⟨⟨before ++ [.container kind name inner], frames⟩, none⟩ later := by
  have entered := Outline.Builder.enter_anew named absent frames
  rw [calls_cons, call, entered, calls_append, fills, calls_cons, call, Outline.Builder.leave_last]

end Call

end ExpectationBuilder

open ExpectationBuilder (Call)

namespace Slot

/-- Calls that spell out some slots: each file with what its source holds, and each container with
what is in it, in order. -/
inductive Spelled (workspace : Workspace) : List Slot → List Call → Prop where
  | nil : Spelled workspace [] []
  | file {name : Name} {source : Source} {text : String} {content : Bytes} {rest : List Slot}
    {later : List Call} (named : Name.ofString text = .ok name)
    (read : workspace.read source = .ok content) (others : Spelled workspace rest later) :
    Spelled workspace (.file name source :: rest) (.file text content :: later)
  | container {kind : ContainerKind} {name : Name} {touches : List Touch} {text : String}
    {slots rest : List Slot} {made later : List Call} (named : Name.ofString text = .ok name)
    (inner : Spelled workspace slots made) (others : Spelled workspace rest later) :
    Spelled workspace (.container kind name touches (.ok slots) :: rest)
      (.enter kind text :: (made ++ .leave :: later))

/-- Some calls spell out a slot, whatever comes after it. -/
def Heads (workspace : Workspace) (slot : Slot) (made : List Call) : Prop :=
  ∀ (rest : List Slot) (later : List Call), Spelled workspace rest later →
    Spelled workspace (slot :: rest) (made ++ later)

mutual

/-- How many levels of directories a slot makes around it; an archive is a file there. -/
def height : Slot → Nat
  | .container .directory _ _ (.ok slots) => levels slots + 1
  | _ => 0

/-- How many levels of directories lie below a container with some slots. -/
def levels : List Slot → Nat
  | [] => 0
  | slot :: rest => max (height slot) (levels rest)

end

/-- No archive in a slot, at any depth, has a directory more than 256 levels below its top. -/
inductive Shallow : Slot → Prop where
  | file (name : Name) (source : Source) : Shallow (.file name source)
  | directory {name : Name} {touches : List Touch} {slots : List Slot}
    (inner : ∀ slot ∈ slots, Shallow slot) :
    Shallow (.container .directory name touches (.ok slots))
  | archive {name : Name} {touches : List Touch} {slots : List Slot} (low : levels slots ≤ 256)
    (inner : ∀ slot ∈ slots, Shallow slot) :
    Shallow (.container .archive name touches (.ok slots))

end Slot

namespace Entry

mutual

def described : Entry → Outline ExpectedFile
  | file name content _ _ => .leaf { name, content }
  | directory name children _ => .container .directory name (describedEach children)
  | archive name members _ _ => .container .archive name (describedEach members)

def describedEach : List Entry → Expectation
  | [] => []
  | entry :: rest => described entry :: describedEach rest

end

/-- The lengths of all files in the archives of an entry are numbers of eight bytes. -/
inductive Measurable : Entry → Prop where
  | file (name : Name) (content : Bytes) (stamp : Stamp) (digest : Digest) :
    Measurable (.file name content stamp digest)
  | directory {name : Name} {children : List Entry} {digest : Digest}
    (inner : ∀ child ∈ children, Measurable child) : Measurable (.directory name children digest)
  | archive {name : Name} {members : List Entry} {bytes : Bytes} {digest : Digest}
    (fits : Member.EachMeasurable (toMembers members))
      (inner : ∀ member ∈ members, Measurable member) :
    Measurable (.archive name members bytes digest)

theorem describedEach_eq (entries : List Entry) :
    describedEach entries = entries.map described := by
  induction entries with
  | nil => rfl
  | cons entry rest ih => rw [describedEach, ih, List.map_cons]

theorem nameOf_described (entry : Entry) : Expectation.nameOf entry.described = entry.name := by
  cases entry <;> rfl

end Entry

namespace Assembler

open Archive (decodeWith Compression)
open Entry (described describedEach toMembers)
open Expectation (Stands StandsEach Decodes Mismatch compareNames compareItem compareItems)
open Slot (Spelled Shallow Separate)

variable {assembler : Assembler}

theorem described_enclose? {kind : ContainerKind} {name : Name} {members : List Entry}
    {full : Entry} (enclosed : assembler.enclose? kind name members = some full) :
    full.described = .container kind name (describedEach members) := by
  unfold enclose? at enclosed
  split at enclosed
  · cases enclosed
    rfl
  · split at enclosed
    · cases enclosed
      rfl
    · cases enclosed

/-- The calls that spell out some slots add the description of the entries that a build of
everything gives them to what the open container holds. -/
theorem calls_spelled {slots : List Slot} {made : List Call}
    (spelled : Spelled assembler.workspace slots made) :
    ∀ {entries : List Entry}, assembler.completeEach? slots = some entries →
      (∀ slot ∈ slots, Separate slot) → ∀ before : Expectation,
      (before.map Expectation.nameOf ++ slots.map Slot.name).Nodup → ∀ frames,
      ExpectationBuilder.calls ⟨⟨before, frames⟩, none⟩ made =
        ⟨⟨before ++ describedEach entries, frames⟩, none⟩ := by
  induction spelled with
  | nil =>
    intro entries complete _ before _ frames
    cases complete
    simp [ExpectationBuilder.calls, describedEach]
  | @file name source text content rest later named read _ ih =>
    intro entries complete separate before distinct frames
    obtain ⟨entry, others, here, there, rfl⟩ :=
      List.forall₂_cons_left_iff.mp (assembler.completeEach?_eq_some.mp complete)
    have shown : entry.described = .leaf ⟨name, content⟩ := by
      simp only [complete?, read, Option.some.injEq] at here
      exact here ▸ rfl
    have distinctLater :
      ((before ++ [Outline.leaf (ExpectedFile.mk name content)]).map Expectation.nameOf ++
        rest.map Slot.name).Nodup := by
      simpa [Slot.name, Expectation.nameOf] using distinct
    have after := ih (assembler.completeEach?_eq_some.mpr there)
      (fun slot present => separate slot (List.mem_cons_of_mem _ present)) _ distinctLater frames
    rw [ExpectationBuilder.calls_cons, ExpectationBuilder.call_file named, after,
      describedEach, shown, List.append_assoc, List.singleton_append]
  | @container kind name touches text slots rest made later named _ _ ihInner ih =>
    intro entries complete separate before distinct frames
    obtain ⟨entry, others, here, there, rfl⟩ :=
      List.forall₂_cons_left_iff.mp (assembler.completeEach?_eq_some.mp complete)
    obtain ⟨members, each, enclosed⟩ := complete?_container.mp here
    obtain ⟨innerDistinct, innerSeparate⟩ := (separate _ List.mem_cons_self).inside
    -- No sibling has the name, so that the builder does not go into a container that is there.
    have absent : ∀ children, .container kind name children ∉ before := by
      intro children present
      have twice : name ∈ before.map Expectation.nameOf := List.mem_map_of_mem present
      exact (List.nodup_append.mp distinct).2.2 name twice name List.mem_cons_self rfl
    have fills (frames : List (Outline.Frame ExpectedFile)) :
        ExpectationBuilder.calls ⟨⟨[], frames⟩, none⟩ made =
          ⟨⟨describedEach members, frames⟩, none⟩ :=
      ihInner (assembler.completeEach?_eq_some.mpr each) innerSeparate []
        (by simpa using innerDistinct) frames
    have distinctLater : ((before ++ [Outline.container kind name (describedEach members)]).map
        Expectation.nameOf ++ rest.map Slot.name).Nodup := by
      simpa [Slot.name, Expectation.nameOf] using distinct
    have after := ih (assembler.completeEach?_eq_some.mpr there)
      (fun slot present => separate slot (List.mem_cons_of_mem _ present)) _ distinctLater frames
    rw [ExpectationBuilder.calls_container named before frames later absent fills, after,
      describedEach, described_enclose? enclosed, List.append_assoc, List.singleton_append]

/-- Calls that spell out all slots of an output make its description. -/
theorem finish_spelled {plan : Plan} {slots : List Slot} {entries : List Entry} {made : List Call}
    (resolved : assembler.resolver.slots plan = .ok slots)
    (complete : assembler.completeEach? slots = some entries)
    (spelled : Spelled assembler.workspace slots made) :
    (ExpectationBuilder.calls .start made).finish = .ok (describedEach entries) := by
  obtain ⟨distinct, separate⟩ := Resolver.slots_separate resolved
  have run := calls_spelled spelled complete separate [] (by simpa using distinct) []
  rw [Outline.Builder.start, Outline.Cursor.start, run]
  rfl

theorem exists_spelled_of_each {slots : List Slot} {entries : List Entry}
    (each : List.Forall₂ (fun slot entry => assembler.complete? slot = some entry) slots entries)
    (heads : ∀ slot ∈ slots, ∀ {full : Entry}, assembler.complete? slot = some full →
      ∃ made, slot.Heads assembler.workspace made) :
    ∃ made, Spelled assembler.workspace slots made := by
  induction each with
  | nil => exact ⟨[], .nil⟩
  | cons here _ ih =>
    obtain ⟨later, others⟩ := ih fun slot present => heads slot (.tail _ present)
    obtain ⟨made, first⟩ := heads _ List.mem_cons_self here
    exact ⟨made ++ later, first _ _ others⟩

theorem exists_heads {slot : Slot} (textual : slot.Textual) :
    ∀ {full : Entry}, assembler.complete? slot = some full →
      ∃ made, slot.Heads assembler.workspace made := by
  induction textual with
  | @file name text source =>
    intro full complete
    cases read : assembler.workspace.read source with
    | error fault => simp [complete?, read] at complete
    | ok content =>
      exact ⟨[.file name.display content], fun _ _ => .file text.ofString_display read⟩
  | failed text kind touches fault =>
    intro full complete
    cases complete
  | @container name text kind touches slots _ ih =>
    intro full complete
    obtain ⟨members, each, _⟩ := complete?_container.mp complete
    obtain ⟨inner, spelled⟩ := exists_spelled_of_each each ih
    refine ⟨.enter kind name.display :: (inner ++ [.leave]), fun rest later others => ?_⟩
    simpa using Spelled.container text.ofString_display spelled others

/-- There are calls that spell out what is built of a plan, if the names in the plans and those of
the sources are texts; builders take no other names. -/
theorem exists_spelled (texts : assembler.workspace.Textual)
    (registered : assembler.registry.Textual)
    {plan : Plan} (textual : plan.Textual) {slots : List Slot} {entries : List Entry}
    (resolved : assembler.resolver.slots plan = .ok slots)
    (complete : assembler.completeEach? slots = some entries) :
    ∃ made, Spelled assembler.workspace slots made :=
  exists_spelled_of_each (assembler.completeEach?_eq_some.mp complete) fun slot present _ =>
    exists_heads (Resolver.slots_textual texts registered textual resolved slot present)

/-- The bytes of an archive are those of its members in order, whose names are distinct. -/
theorem archive_of_enclose? {name : Name} {members : List Entry} {full : Entry}
    (enclosed : assembler.enclose? .archive name members = some full) :
    Member.DistinctNames (toMembers members) ∧
      full = .ofArchive assembler.hash name members
        (assembler.compression.apply assembler.codec
          (Archive.layoutArchive (toMembers members))) := by
  simp only [enclose?] at enclosed
  split at enclosed
  · next bytes encoded =>
    cases enclosed
    obtain ⟨distinct, rfl⟩ := Archive.encodeWith_eq_ok.mp encoded
    exact ⟨distinct, rfl⟩
  · cases enclosed

theorem levels_of_each {slots : List Slot} {entries : List Entry}
    (each : List.Forall₂ (fun slot entry => assembler.complete? slot = some entry) slots entries)
    (heights : ∀ slot ∈ slots, ∀ {full : Entry}, assembler.complete? slot = some full →
      full.toMember.height = slot.height) :
    Member.levels (toMembers entries) = Slot.levels slots := by
  induction each with
  | nil => rfl
  | cons complete _ ih =>
    rw [toMembers, Member.levels, Slot.levels, heights _ List.mem_cons_self complete,
      ih fun slot present => heights slot (List.mem_cons_of_mem _ present)]

theorem height_complete (slot : Slot) : ∀ {full : Entry}, assembler.complete? slot = some full →
    full.toMember.height = slot.height := by
  induction slot using Slot.induct with
  | file name source =>
    intro full complete
    simp only [complete?] at complete
    split at complete
    · cases complete
      rfl
    · cases complete
  | failed kind name touches fault =>
    intro full complete
    cases complete
  | container kind name touches slots ih =>
    intro full complete
    obtain ⟨members, each, enclosed⟩ := complete?_container.mp complete
    cases kind with
    | directory =>
      cases enclosed
      exact congrArg (· + 1) (levels_of_each each ih)
    | archive =>
      obtain ⟨_, rfl⟩ := archive_of_enclose? enclosed
      rfl

theorem standsEach_of_each {slots : List Slot} {entries : List Entry}
    (each : List.Forall₂ (fun slot entry => assembler.complete? slot = some entry) slots entries)
    (stands : ∀ slot ∈ slots, ∀ {full : Entry}, assembler.complete? slot = some full →
      full.Measurable → (Stands assembler.codec full.described full ↔ slot.Shallow))
    (fit : ∀ entry ∈ entries, entry.Measurable) :
    StandsEach assembler.codec (describedEach entries) entries ↔ ∀ slot ∈ slots, slot.Shallow := by
  induction each with
  | nil => simp [describedEach, StandsEach]
  | @cons slot entry slots entries complete _ ih =>
    have here := stands slot List.mem_cons_self complete (fit entry List.mem_cons_self)
    have later := ih (fun slot present => stands slot (List.mem_cons_of_mem _ present))
      fun entry present => fit entry (List.mem_cons_of_mem _ present)
    simp only [describedEach, StandsEach, Entry.nameOf_described, here, later, true_and,
      List.forall_mem_cons]

theorem compareNames_described (path : Path) (entries : List Entry) :
    compareNames path (describedEach entries) (toMembers entries) = .ok () := by
  refine Expectation.compareNames_eq_ok.mpr ?_
  rw [Entry.toMembers_eq, Entry.describedEach_eq, List.map_map, List.map_map]
  refine List.map_congr_left fun entry _ => ?_
  rw [Function.comp, Function.comp, Entry.name_toMember, Entry.nameOf_described]

/-- If the names of a container are as described, only what is inside can differ. -/
theorem mismatch_of_each {slots : List Slot} {entries : List Entry}
    (each : List.Forall₂ (fun slot entry => assembler.complete? slot = some entry) slots entries)
    (differs : ∀ slot ∈ slots, ∀ {full : Entry}, assembler.complete? slot = some full →
      full.Measurable → ∀ path {mismatch : Mismatch},
      compareItem assembler.codec path full.described full.toMember = .error mismatch →
      mismatch.difference = .notAnArchive .tooDeep)
    (fit : ∀ entry ∈ entries, entry.Measurable) (path : Path) {mismatch : Mismatch}
    (compared : compareItems assembler.codec path (describedEach entries) (toMembers entries) =
      .error mismatch) :
    mismatch.difference = .notAnArchive .tooDeep := by
  induction each with
  | nil => cases compared
  | @cons slot entry slots entries complete _ ih =>
    simp only [describedEach, toMembers, compareItems, bind_error_iff] at compared
    rcases compared with here | ⟨_, _, there⟩
    · exact differs slot List.mem_cons_self complete (fit entry List.mem_cons_self) _ here
    · exact ih (fun slot present => differs slot (List.mem_cons_of_mem _ present))
        (fun entry present => fit entry (List.mem_cons_of_mem _ present)) there

section Reading

variable (undoes : ∀ level content,
    assembler.codec.decompress (assembler.codec.compress level content) = .ok content)
  (marked : ∀ level content,
    Archive.isCompressed (assembler.codec.compress level content) = true)

include undoes marked

/-- Members read back from their archive if it is not too deep. -/
theorem decodes_archive {members : List Entry} (distinct : Member.DistinctNames (toMembers members))
    (fits : Member.EachMeasurable (toMembers members)) (expected : Expectation) :
    Decodes assembler.codec expected
        (assembler.compression.apply assembler.codec (Archive.layoutArchive (toMembers members))) ↔
      Member.levels (toMembers members) ≤ 256 ∧ StandsEach assembler.codec expected members := by
  rw [Decodes, Archive.decodeWith_apply undoes marked, Expectation.standsEach_iff]
  by_cases low : Member.levels (toMembers members) ≤ 256
  · have read := Archive.decodePlain_eq_ok.mpr ⟨⟨low, distinct, fits⟩, rfl⟩
    simp [read, low]
  · have refused := Archive.decodePlain_too_deep distinct fits (Nat.lt_of_not_le low)
    simp [refused, low]

/-- An entry stands for its own description exactly if no archive in it is too deep. -/
theorem stands_complete (slot : Slot) : ∀ {full : Entry}, assembler.complete? slot = some full →
    full.Measurable → (Stands assembler.codec full.described full ↔ slot.Shallow) := by
  induction slot using Slot.induct with
  | file name source =>
    intro full complete _
    simp only [complete?] at complete
    split at complete
    · cases complete
      simp [Entry.ofFile, described, Stands, Shallow.file]
    · cases complete
  | failed kind name touches fault =>
    intro full complete
    cases complete
  | container kind name touches slots ih =>
    intro full complete fits
    obtain ⟨members, each, enclosed⟩ := complete?_container.mp complete
    cases kind with
    | directory =>
      cases enclosed
      cases fits with
      | directory inner =>
        have whole := standsEach_of_each each ih inner
        simp only [Entry.ofDirectory, described, Stands, whole]
        constructor
        · exact .directory
        · intro shallow
          cases shallow with
          | directory inner => exact inner
    | archive =>
      obtain ⟨distinct, rfl⟩ := archive_of_enclose? enclosed
      cases fits with
      | archive fits inner =>
        have whole := standsEach_of_each each ih inner
        simp only [Entry.ofArchive, described, Stands, decodes_archive undoes marked distinct fits,
          whole, levels_of_each each fun slot _ _ complete => height_complete slot complete]
        constructor
        · rintro ⟨low, inner⟩
          exact .archive low inner
        · intro shallow
          cases shallow with
          | archive low inner => exact ⟨low, inner⟩

/-- The only difference that can be found between an entry and its own description is an archive
that is too deep. -/
theorem mismatch_complete (slot : Slot) : ∀ {full : Entry}, assembler.complete? slot = some full →
    full.Measurable → ∀ path {mismatch : Mismatch},
    compareItem assembler.codec path full.described full.toMember = .error mismatch →
    mismatch.difference = .notAnArchive .tooDeep := by
  induction slot using Slot.induct with
  | file name source =>
    intro full complete _ path mismatch compared
    simp only [complete?] at complete
    split at complete
    · cases complete
      simp [Entry.ofFile, described, Entry.toMember, compareItem] at compared
    · cases complete
  | failed kind name touches fault =>
    intro full complete
    cases complete
  | container kind name touches slots ih =>
    intro full complete fits path mismatch compared
    obtain ⟨members, each, enclosed⟩ := complete?_container.mp complete
    cases kind with
    | directory =>
      cases enclosed
      cases fits with
      | directory inner =>
        simp only [Entry.ofDirectory, described, Entry.toMember, compareItem,
          compareNames_described] at compared
        exact mismatch_of_each each ih inner path compared
    | archive =>
      obtain ⟨distinct, rfl⟩ := archive_of_enclose? enclosed
      cases fits with
      | archive fits inner =>
        simp only [Entry.ofArchive, described, Entry.toMember, compareItem,
          Archive.decodeWith_apply undoes marked] at compared
        by_cases low : Member.levels (toMembers members) ≤ 256
        · have read := Archive.decodePlain_eq_ok.mpr ⟨⟨low, distinct, fits⟩, rfl⟩
          simp only [read, compareNames_described] at compared
          exact mismatch_of_each each ih inner path compared
        · have refused := Archive.decodePlain_too_deep distinct fits (Nat.lt_of_not_le low)
          simp only [refused, Except.error.injEq] at compared
          rw [← compared]

/-- An output is checked against its own description: it passes exactly if no archive in it is too
deep, and nothing else can be wrong with it. -/
theorem verify_described {plan : Plan} {slots : List Slot} {entries : List Entry} {made : List Call}
    (resolved : assembler.resolver.slots plan = .ok slots)
    (complete : assembler.completeEach? slots = some entries)
    (fit : ∀ entry ∈ entries, entry.Measurable)
    (spelled : Spelled assembler.workspace slots made) (artifact : String) :
    let outcome := Expectation.verify artifact (some entries) (ExpectationBuilder.calls .start made)
      assembler.codec
    (outcome = .ok () ↔ ∀ slot ∈ slots, slot.Shallow) ∧
      ∀ fault, outcome = .error fault →
        ∃ path, fault = .mismatch artifact ⟨path, .notAnArchive .tooDeep⟩ := by
  have finished := finish_spelled resolved complete spelled
  have each := assembler.completeEach?_eq_some.mp complete
  constructor
  · exact (Expectation.verify_finished finished artifact entries).trans <| standsEach_of_each each
      (fun slot _ _ complete fits => stands_complete undoes marked slot complete fits) fit
  · intro fault failed
    simp only [Expectation.verify, finished, Expectation.compare, compareNames_described] at failed
    cases compared : compareItems assembler.codec .root (describedEach entries) (toMembers entries)
      with
    | ok value => simp [compared, bind, Except.bind, Except.mapError] at failed
    | error mismatch =>
      have differs := mismatch_of_each each
        (fun slot _ _ complete fits => mismatch_complete undoes marked slot complete fits)
          fit _ compared
      simp only [compared, bind, Except.bind, Except.mapError, Except.error.injEq] at failed
      cases mismatch with
      | mk path difference =>
        cases differs
        exact ⟨path, failed.symm⟩

end Reading

end Assembler

namespace Packager

open Archive (isCompressed)
open Slot (Spelled)

/-- After a build of everything that succeeds, the output of each artifact is checked against calls
that spell out the expansion of its plan, with the content of every source as it is. There are such
calls if the names in the plans and those of the sources are texts. The output passes exactly if no
archive, at any depth, has a directory more than 256 levels below its top; otherwise such an archive
is what is found. Of the compression it is assumed that reading undoes it, and the lengths of the
files in archives to be numbers of eight bytes. -/
theorem verify_compiled {job : Job} {packager : Packager} {disk : Disk}
    (undoes : ∀ level content, job.codec.decompress (job.codec.compress level content) =
      .ok content)
    (marked : ∀ level content, isCompressed (job.codec.compress level content) = true)
    (everything : job.scope = .everything) {report : Report}
    (succeeded : (run job packager disk).1 = .ok report) {artifact : Artifact}
    (registered : artifact ∈ job.registry.artifacts.values) :
    ∃ slots entries,
      (job.assembler packager.config.compression artifact.name).resolver.slots artifact.plan =
        .ok slots ∧
      (run job packager disk).2.1.output? artifact.name = some entries ∧
      (job.workspace.Textual → job.registry.Textual → ∃ made, Spelled job.workspace slots made) ∧
      ((∀ entry ∈ entries, entry.Measurable) → ∀ made, Spelled job.workspace slots made →
        let outcome := Expectation.verify artifact.name
          ((run job packager disk).2.1.output? artifact.name)
          (ExpectationBuilder.calls .start made) job.codec
        (outcome = .ok () ↔ ∀ slot ∈ slots, slot.Shallow) ∧
          ∀ fault, outcome = .error fault →
            ∃ path, fault = .mismatch artifact.name ⟨path, .notAnArchive .tooDeep⟩) := by
  obtain ⟨entries, full, current⟩ := (run_everything everything succeeded).1 artifact registered
  have stored := output?_of_current? current
  unfold Assembler.full? at full
  split at full
  · next slots resolved =>
    refine ⟨slots, entries, resolved, stored, fun texts registeredTexts => ?_,
      fun fit made spelled => ?_⟩
    · exact Assembler.exists_spelled texts registeredTexts (registeredTexts artifact registered)
        resolved full
    · rw [stored]
      exact Assembler.verify_described undoes marked resolved full fit spelled artifact.name
  · cases full

end Packager

namespace Sample

def pack : Name := ⟨Bytes.ofString "pack", by decide⟩

def layer : Name := ⟨Bytes.ofString "layer", by decide⟩

def layers : Nat → Plan
  | 0 => []
  | count + 1 => [.container .directory layer (layers count)]

def layerSlots : Nat → List Slot
  | 0 => []
  | count + 1 => [.container .directory layer [] (.ok (layerSlots count))]

def layerCalls : Nat → List Call
  | 0 => []
  | count + 1 => .enter .directory "layer" :: (layerCalls count ++ [.leave])

/-- A project with one artifact, an archive of directories inside each other. -/
def packed (count : Nat) : Packager.Job :=
  single [.container .archive pack (layers count)]

def packSlots (count : Nat) : List Slot :=
  [.container .archive pack [] (.ok (layerSlots count))]

def packCalls (count : Nat) : List Call :=
  .enter .archive "pack" :: (layerCalls count ++ [.leave])

theorem spelled_pack (count : Nat) : Slot.Spelled [] (packSlots count) (packCalls count) := by
  have inner : Slot.Spelled [] (layerSlots count) (layerCalls count) := by
    induction count with
    | zero => exact .nil
    | succ count ih => exact .container (by decide) ih .nil
  exact .container (by decide) inner .nil

theorem levels_layerSlots (count : Nat) : Slot.levels (layerSlots count) = count := by
  induction count with
  | zero => rfl
  | succ count ih => simp [layerSlots, Slot.levels, Slot.height, ih]

/-- The archive is shallow if there are not too many directories. -/
theorem shallow_pack (count : Nat) :
    (∀ slot ∈ packSlots count, slot.Shallow) ↔ count ≤ 256 := by
  have inner : ∀ slot ∈ layerSlots count, slot.Shallow := by
    induction count with
    | zero => simp [layerSlots]
    | succ count ih => exact List.forall_mem_singleton.mpr (.directory ih)
  rw [packSlots, List.forall_mem_singleton]
  constructor
  · intro shallow
    cases shallow with
    | archive low _ => rwa [levels_layerSlots] at low
  · intro low
    exact .archive (by rwa [levels_layerSlots]) inner

section Resolution

variable (resolver : Resolver) (touched : String → List Touch)
  (included : Path → String → Except BuildFault (List Slot))

theorem touches_layers (count : Nat) : Outline.touchesList touched (layers count) = [] := by
  induction count with
  | zero => rfl
  | succ count ih => simp [layers, Outline.touchesList, Outline.touches, ih]

theorem expand_around {count : Nat}
    (inner : ∀ path, resolver.expandList touched included path (layers count) =
      .ok (layerSlots count))
    (kind : ContainerKind) (name : Name) (path : Path) :
    resolver.expandList touched included path [.container kind name (layers count)] =
      .ok [.container kind name [] (.ok (layerSlots count))] := by
  have distinct : ((layerSlots count).map Slot.name).Nodup := by
    cases count <;> simp [layerSlots]
  have contents : resolver.distinct (path.push name)
      (resolver.expandList touched included (path.push name) (layers count)) =
        .ok (layerSlots count) :=
    Resolver.distinct_eq_ok.mpr ⟨inner _, distinct⟩
  simp only [Resolver.expandList, Resolver.expand, contents, touches_layers]
  rfl

theorem expand_layers (count : Nat) : ∀ path,
    resolver.expandList touched included path (layers count) = .ok (layerSlots count) := by
  induction count with
  | zero => exact fun _ => rfl
  | succ count ih => exact expand_around resolver touched included ih .directory layer

end Resolution

theorem slots_pack (resolver : Resolver) (count : Nat) :
    resolver.slots [.container .archive pack (layers count)] = .ok (packSlots count) := by
  refine Resolver.distinct_eq_ok.mpr ⟨?_, by simp [packSlots]⟩
  unfold Resolver.place
  exact expand_around _ _ _ (expand_layers _ _ _ count) .archive pack .root

/-- Directories inside each other can be built, and hold no files. -/
theorem complete_layers (assembler : Assembler) (count : Nat) :
    ∃ entries, assembler.completeEach? (layerSlots count) = some entries ∧
      Member.DistinctNames (Entry.toMembers entries) ∧
      Member.EachMeasurable (Entry.toMembers entries) ∧ ∀ entry ∈ entries, entry.Measurable := by
  induction count with
  | zero => exact ⟨[], rfl, ⟨.nil, trivial⟩, trivial, List.forall_mem_nil _⟩
  | succ count ih =>
    obtain ⟨entries, built, distinct, fits, inner⟩ := ih
    refine ⟨[.ofDirectory assembler.hash layer entries], ?_, ?_, ⟨fits, trivial⟩, ?_⟩
    · simp [layerSlots, Assembler.completeEach?, Assembler.complete?, built, Assembler.enclose?]
    · exact ⟨List.nodup_singleton _, distinct, trivial⟩
    · exact List.forall_mem_singleton.mpr (.directory inner)

theorem complete_pack (assembler : Assembler) (count : Nat) :
    ∃ entries, assembler.completeEach? (packSlots count) = some entries ∧
      ∀ entry ∈ entries, entry.Measurable := by
  obtain ⟨members, built, distinct, fits, inner⟩ := complete_layers assembler count
  have encoded := Archive.encodeWith_of_distinct assembler.codec assembler.compression distinct
  refine ⟨[.ofArchive assembler.hash pack members (assembler.compression.apply assembler.codec
    (Archive.layoutArchive (Entry.toMembers members)))], ?_, ?_⟩
  · simp [packSlots, Assembler.completeEach?, Assembler.complete?, built,
      Assembler.enclose?, encoded]
  · exact List.forall_mem_singleton.mpr (.archive fits inner)

end Sample

namespace Packager

open Sample
open Slot (Spelled)

theorem packed_succeeds (count : Nat) :
    ∃ report, (run (packed count) (start .standard) .blank).1 = .ok report := by
  refine run_everything_buildable rfl rfl fun artifact registered => ?_
  cases List.mem_singleton.mp registered
  obtain ⟨entries, built, _⟩ := complete_pack ((packed count).assembler .none "app") count
  refine ⟨entries, ?_⟩
  rw [Assembler.full?, slots_pack]
  exact built

/-- What the project with directories inside each other is built to, with what is known of it. -/
theorem packed_output (count : Nat) :
    ∃ entries, (run (packed count) (start .standard) .blank).2.1.output? "app" = some entries ∧
      ((packed count).assembler .none "app").completeEach? (packSlots count) = some entries ∧
      ∀ entry ∈ entries, entry.Measurable := by
  obtain ⟨report, succeeded⟩ := packed_succeeds count
  obtain ⟨entries, full, current⟩ :=
    (run_everything rfl succeeded).1 ⟨"app", _, 1⟩ (List.mem_singleton.mpr rfl)
  obtain ⟨built, complete, fit⟩ := complete_pack ((packed count).assembler .none "app") count
  rw [Assembler.full?, slots_pack] at full
  have same : some built = some entries := complete.symm.trans full
  cases same
  exact ⟨entries, output?_of_current? current, complete, fit⟩

theorem verify_compiled_packed :
    (∃ report, (run (packed 256) (start .standard) .blank).1 = .ok report) ∧
      Expectation.verify "app" ((run (packed 256) (start .standard) .blank).2.1.output? "app")
        (ExpectationBuilder.calls .start (packCalls 256)) = .ok () := by
  obtain ⟨report, succeeded⟩ := packed_succeeds 256
  obtain ⟨slots, entries, resolved, stored, _, checked⟩ :=
    @verify_compiled (packed 256) (start .standard) .blank
      (fun _ content => Zstd.decompress_compress content)
      (fun _ content => Zstd.magic_isPrefixOf_compress content) rfl report succeeded
      ⟨"app", _, 1⟩ (List.mem_singleton.mpr rfl)
  obtain ⟨built, output, _, fit⟩ := packed_output 256
  have sameEntries : some built = some entries := output.symm.trans stored
  have sameSlots : Except.ok (packSlots 256) = Except.ok slots :=
    (slots_pack _ 256).symm.trans resolved
  cases sameEntries
  cases sameSlots
  exact ⟨⟨report, succeeded⟩,
    (checked fit (packCalls 256) (spelled_pack 256)).1.mpr ((shallow_pack 256).mpr (Nat.le_refl _))⟩

/-- With one directory more, the output that was just compiled does not pass. -/
theorem packed_refused :
    (∃ report, (run (packed 257) (start .standard) .blank).1 = .ok report) ∧
      ((packed 257).assembler .none "app").resolver.slots [.container .archive pack (layers 257)] =
        .ok (packSlots 257) ∧
      Spelled (packed 257).workspace (packSlots 257) (packCalls 257) ∧
      Expectation.verify "app" ((run (packed 257) (start .standard) .blank).2.1.output? "app")
        (ExpectationBuilder.calls .start (packCalls 257)) ≠ .ok () := by
  obtain ⟨entries, output, complete, fit⟩ := packed_output 257
  have resolved := slots_pack ((packed 257).assembler .none "app").resolver 257
  have checked := (@Assembler.verify_described ((packed 257).assembler .none "app")
    (fun _ content => Zstd.decompress_compress content)
    (fun _ content => Zstd.magic_isPrefixOf_compress content) _ _ _ _ resolved complete fit
    (spelled_pack 257) "app").1
  refine ⟨packed_succeeds 257, resolved, spelled_pack 257, fun passed => ?_⟩
  rw [output] at passed
  have low : 257 ≤ 256 := (shallow_pack 257).mp (checked.mp passed)
  omega

end Packager

end Depot

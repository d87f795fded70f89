import Depot.Expectation
import Depot.Proofs.Outcome
import Depot.Proofs.Outline

set_option autoImplicit false

namespace Depot.Expectation

open Archive.Compression (Codec)

variable (codec : Codec)

mutual

def Matches : Outline ExpectedFile → Member → Prop
  | .leaf file, .file _ content => content = file.content
  | .container .directory _ children, .directory _ members => MatchesEach children members
  | .container .archive _ children, .file _ content =>
    ∃ members, Archive.decodeWith codec content = .ok members ∧ MatchesEach children members
  | .leaf _, .directory .. | .container .directory .., .file .. => False
  | .container .archive .., .directory .. => False

/-- The members of a container are what is expected: their names, in this order, and each of them.
-/
def MatchesEach : Expectation → List Member → Prop
  | [], [] => True
  | expected :: rest, member :: others =>
    member.name = nameOf expected ∧ Matches expected member ∧ MatchesEach rest others
  | [], _ :: _ | _ :: _, [] => False

end

def Decodes (expected : Expectation) (bytes : Bytes) : Prop :=
  ∃ members, Archive.decodeWith codec bytes = .ok members ∧ MatchesEach codec expected members

mutual

/-- An entry of an output is what is expected, apart from its name. A file and an archive are the
bytes that they are written out as, whichever of them is expected. -/
def Stands : Outline ExpectedFile → Entry → Prop
  | .leaf file, .file _ content _ _ => content = file.content
  | .leaf file, .archive _ _ bytes _ => bytes = file.content
  | .container .directory _ children, .directory _ entries _ => StandsEach children entries
  | .container .archive _ children, .file _ content _ _ => Decodes codec children content
  | .container .archive _ children, .archive _ _ bytes _ => Decodes codec children bytes
  | .leaf _, .directory .. | .container .archive .., .directory .. => False
  | .container .directory .., .file .. | .container .directory .., .archive .. => False

/-- The entries of a container are what is expected: their names, in this order, and each of them.
-/
def StandsEach : Expectation → List Entry → Prop
  | [], [] => True
  | expected :: rest, entry :: others =>
    entry.name = nameOf expected ∧ Stands expected entry ∧ StandsEach rest others
  | [], _ :: _ | _ :: _, [] => False

end

theorem firstDifference_eq_none {expected actual : List Name} :
    firstDifference expected actual = none ↔ actual = expected := by
  induction expected generalizing actual with
  | nil => cases actual <;> simp [firstDifference]
  | cons name rest ih =>
    cases actual with
    | nil => simp [firstDifference]
    | cons other others =>
      by_cases same : name = other
      · simp [firstDifference, same, ih]
      · simp [firstDifference, same, Ne.symm same]

theorem compareNames_eq_ok {path : Path} {expected : Expectation} {members : List Member} :
    compareNames path expected members = .ok () ↔
      members.map Member.name = expected.map nameOf := by
  rw [← firstDifference_eq_none, compareNames]
  cases firstDifference (expected.map nameOf) (members.map Member.name) <;> simp

variable {codec}

/-- Members that match have the expected names, as many of them and in their order. -/
theorem matchesEach_iff {expected : Expectation} {members : List Member} :
    MatchesEach codec expected members ↔
      members.map Member.name = expected.map nameOf ∧
        List.Forall₂ (Matches codec) expected members := by
  induction expected generalizing members with
  | nil => cases members <;> simp [MatchesEach]
  | cons first rest ih =>
    cases members with
    | nil => simp [MatchesEach]
    | cons member others =>
      simp only [MatchesEach, ih, List.map_cons, List.cons.injEq, List.forall₂_cons]
      tauto

/-- Entries stand for what is expected if they do as members. -/
theorem standsEach_of_each {expected : Expectation} {entries : List Entry}
    (each : ∀ tree ∈ expected, ∀ entry, Stands codec tree entry ↔
      Matches codec tree entry.toMember) :
    StandsEach codec expected entries ↔ MatchesEach codec expected (Entry.toMembers entries) := by
  induction expected generalizing entries with
  | nil => cases entries <;> simp [StandsEach, MatchesEach, Entry.toMembers]
  | cons first rest ih =>
    cases entries with
    | nil => simp [StandsEach, MatchesEach, Entry.toMembers]
    | cons entry others =>
      have here := each first List.mem_cons_self entry
      have later := @ih others fun tree present => each tree (.tail _ present)
      have name : entry.toMember.name = entry.name := by cases entry <;> rfl
      simp only [StandsEach, MatchesEach, Entry.toMembers, here, later, name]

theorem stands_iff (expected : Outline ExpectedFile) :
    ∀ entry, Stands codec expected entry ↔ Matches codec expected entry.toMember := by
  induction expected using Outline.induct with
  | leaf file => intro entry; cases entry <;> simp [Stands, Matches, Entry.toMember]
  | container kind name children ih =>
    intro entry
    have inner (entries : List Entry) := @standsEach_of_each codec children entries ih
    cases kind <;> cases entry <;> simp [Stands, Matches, Decodes, Entry.toMember, inner]

/-- The entries of an output stand for what is expected exactly if the members that they are in an
archive match it. -/
theorem standsEach_iff {expected : Expectation} {entries : List Entry} :
    StandsEach codec expected entries ↔ MatchesEach codec expected (Entry.toMembers entries) :=
  standsEach_of_each fun tree _ => stands_iff tree

/-- The comparison of the members of one container, given that each of them is compared exactly. -/
theorem compareItems_of_each {expected : Expectation} {path : Path} {members : List Member}
    (each : ∀ tree ∈ expected, ∀ path member,
      compareItem codec path tree member = .ok () ↔ Matches codec tree member)
    (length : expected.length = members.length) :
    compareItems codec path expected members = .ok () ↔
      List.Forall₂ (Matches codec) expected members := by
  induction expected generalizing members with
  | nil =>
    have empty : members = [] := List.length_eq_zero_iff.mp length.symm
    simp [compareItems, empty]
  | cons first rest ih =>
    cases members with
    | nil => cases length
    | cons member others =>
      have here := each first List.mem_cons_self (path.push (nameOf first)) member
      have later := ih (fun tree present => each tree (.tail _ present)) (Nat.succ.inj length)
      simp only [compareItems, bind_unit_ok_iff, here, later, List.forall₂_cons]

/-- The same with the comparison of their names. -/
theorem compareBoth_of_each {expected : Expectation} {path : Path} {members : List Member}
    (each : ∀ tree ∈ expected, ∀ path member,
      compareItem codec path tree member = .ok () ↔ Matches codec tree member) :
    (compareNames path expected members >>= fun _ => compareItems codec path expected members) =
        .ok () ↔ MatchesEach codec expected members := by
  rw [bind_unit_ok_iff, matchesEach_iff, compareNames_eq_ok]
  refine and_congr_right fun names => compareItems_of_each each ?_
  simpa using (congrArg List.length names).symm

/-- Something that is expected is found exactly if a member matches it, wherever it is. -/
theorem compareItem_eq_ok (expected : Outline ExpectedFile) :
    ∀ path member, compareItem codec path expected member = .ok () ↔
      Matches codec expected member := by
  induction expected using Outline.induct with
  | leaf file =>
    intro path member
    cases member with
    | file name content => simp [compareItem, Matches, eq_comm]
    | directory name members => simp [compareItem, Matches]
  | container kind name children ih =>
    intro path member
    cases kind with
    | directory =>
      cases member with
      | file name content => simp [compareItem, Matches]
      | directory name members => exact compareBoth_of_each ih
    | archive =>
      cases member with
      | directory name members => simp [compareItem, Matches]
      | file name content =>
        simp only [compareItem, Matches]
        cases decoded : Archive.decodeWith codec content with
        | error fault => simp
        | ok members =>
          simp only [Except.ok.injEq, exists_eq_left']
          exact compareBoth_of_each ih

theorem compare_eq_ok {expected : Expectation} {entries : List Entry} :
    compare codec expected entries = .ok () ↔ StandsEach codec expected entries :=
  (compareBoth_of_each fun tree _ => compareItem_eq_ok tree).trans standsEach_iff.symm

theorem verify_finished {builder : ExpectationBuilder} {expected : Expectation}
    (finished : builder.finish = .ok expected) (artifact : String) (entries : List Entry) :
    verify artifact (some entries) builder codec = .ok () ↔ StandsEach codec expected entries := by
  rw [← compare_eq_ok]
  simp only [verify, finished]
  cases compare codec expected entries <;> simp [Except.mapError]

/-- An output passes exactly if it was built, the description of what is expected is a correct one,
and the two trees match. -/
theorem verify_eq_ok (artifact : String) (output? : Option (List Entry))
    (builder : ExpectationBuilder) :
    verify artifact output? builder codec = .ok () ↔
      ∃ expected entries, builder.finish = .ok expected ∧ output? = some entries ∧
        StandsEach codec expected entries := by
  cases finished : builder.finish with
  | error fault => simp [verify, finished]
  | ok expected =>
    cases output? with
    | none => simp [verify, finished]
    | some entries =>
      simp only [verify_finished finished, Except.ok.injEq, Option.some.injEq, exists_and_left,
        exists_eq_left']

end Depot.Expectation

import Depot.Proofs.Expectation.Match
import Depot.Proofs.Packager.Frame
import Mathlib.Data.List.Basic

set_option autoImplicit false

namespace Depot.Expectation

open Archive.Compression (Codec)

/-- A comparison in a container, by the positions of what is compared. -/
inductive Check where
  /-- Of the names at a position. -/
  | name (index : Nat)
  /-- Of what stands at a position, apart from its name and from what is inside. -/
  | item (index : Nat)
  /-- Of something inside of what stands at a position. -/
  | inside (index : Nat) (check : Check)
deriving DecidableEq

namespace Check

/-- The positions that lead to what is compared. In the order of lists, these are in the order depth
first, parents before what they hold and siblings in order. -/
def place : Check → List Nat
  | name index | item index => [index]
  | inside index check => index :: check.place

/-- The order in which comparisons are made: all those of the names in a container come first. -/
def Precedes : Check → Check → Prop
  | name index, name index' => index < index'
  | name _, item _ | name _, inside .. => True
  | item _, name _ | inside .., name _ => False
  | item index, item index' | inside index _, item index' => index < index'
  | item index, inside index' _ => index ≤ index'
  | inside index check, inside index' check' =>
    index < index' ∨ index = index' ∧ check.Precedes check'

/-- A comparison of names and another one, of what stands before these names in their container or
of something inside of it. -/
def Overtakes : Check → Check → Prop
  | name index, item index' | name index, inside index' _ => index' < index
  | inside index check, inside index' check' => index = index' ∧ check.Overtakes check'
  | _, _ => False

theorem precedes_total (check other : Check) :
    check.Precedes other ∨ check = other ∨ other.Precedes check := by
  induction check generalizing other with
  | name index => cases other <;> grind [Precedes]
  | item index => cases other <;> grind [Precedes]
  | inside index check ih =>
    cases other with
    | name index' => exact .inr (.inr trivial)
    | item index' =>
      simp only [Precedes, reduceCtorEq]
      omega
    | inside index' check' =>
      simp only [Precedes, inside.injEq]
      rcases Nat.lt_trichotomy index index' with before | rfl | after
      · exact .inl (.inl before)
      · rcases ih check' with first | rfl | last
        · exact .inl (.inr ⟨rfl, first⟩)
        · exact .inr (.inl ⟨rfl, rfl⟩)
        · exact .inr (.inr (.inr ⟨rfl, last⟩))
      · exact .inr (.inr (.inl after))

/-- The order of the comparisons is the one depth first, but for names that come before what stands
before them. -/
theorem precedes_or_overtakes {check other : Check} (before : other.place < check.place) :
    other.Precedes check ∨ check.Overtakes other := by
  induction check generalizing other with
  | name index | item index =>
    cases other <;> simp only [place, List.cons_lt_cons_iff, List.not_lt_nil] at before <;>
      grind [Precedes, Overtakes]
  | inside index check ih =>
    cases other with
    | name index' => exact .inl trivial
    | item index' =>
      simp only [place, List.cons_lt_cons_iff] at before
      have notAfter : index' ≤ index := by omega
      exact .inl notAfter
    | inside index' check' =>
      simp only [place, List.cons_lt_cons_iff] at before
      rcases before with earlier | ⟨rfl, deeper⟩
      · exact .inl (.inl earlier)
      · exact (ih deeper).imp (fun precedes => .inr ⟨rfl, precedes⟩)
          fun overtakes => ⟨rfl, overtakes⟩

end Check

/-- The kind of member that something expected is: an archive is a file. -/
def storedKind : Outline ExpectedFile → Kind
  | .leaf _ | .container .archive .. => .file
  | .container .directory .. => .directory

variable (codec : Codec)

/-- What a member is in place of what is expected, names and what is inside apart. -/
inductive Differs : Outline ExpectedFile → Member → Difference → Prop
  | kind {tree : Outline ExpectedFile} {member : Member}
    (other : memberKind member ≠ storedKind tree) :
    Differs tree member (.kind (kindOf tree) (memberKind member))
  | content {file : ExpectedFile} {name : Name} {content : Bytes} (other : content ≠ file.content) :
    Differs (.leaf file) (.file name content)
      (.content (Text.Utf8.lossy file.content) (Text.Utf8.lossy content))
  | unreadable {name name' : Name} {children : Expectation} {content : Bytes}
    {fault : Archive.ReadFault} (refused : Archive.decodeWith codec content = .error fault) :
    Differs (.container .archive name children) (.file name' content) (.notAnArchive fault)

/-- What is inside, where a directory is one and an archive can be read. -/
def inside? : Outline ExpectedFile → Member → Option (Expectation × List Member)
  | .container .directory _ children, .directory _ members => some (children, members)
  | .container .archive _ children, .file _ content =>
    (Archive.decodeWith codec content).toOption.map fun members => (children, members)
  | _, _ => none

/-- A comparison, in the container at a path, finds a mismatch. At a position where one of the two
has ended, the names are different too. -/
def Check.Finds : Check → Path → Expectation → List Member → Mismatch → Prop
  | name index, path, expected, members, found =>
    let wanted? := expected[index]?.map nameOf
    let actual? := members[index]?.map Member.name
    wanted? ≠ actual? ∧ ∃ name, wanted?.or actual? = some name ∧
      found = ⟨path.push name,
        .names (String.join (expected.map expectedLine)) (String.join (members.map memberLine))⟩
  | item index, path, expected, members, found =>
    ∃ tree member difference, expected[index]? = some tree ∧ members[index]? = some member ∧
      Differs codec tree member difference ∧ found = ⟨path.push (nameOf tree), difference⟩
  | inside index check, path, expected, members, found =>
    ∃ tree member children inner, expected[index]? = some tree ∧ members[index]? = some member ∧
      inside? codec tree member = some (children, inner) ∧
        check.Finds (path.push (nameOf tree)) children inner found

/-- What is expected and what is there are different in what is compared. -/
def Check.Fails (check : Check) (expected : Expectation) (members : List Member) : Prop :=
  ∃ path found, check.Finds codec path expected members found

variable {codec} {path : Path} {expected : Expectation} {members : List Member} {found : Mismatch}

theorem Differs.unique {tree : Outline ExpectedFile} {member : Member}
    {difference difference' : Difference} (first : Differs codec tree member difference)
    (second : Differs codec tree member difference') :
    difference = difference' := by
  cases first with
  | kind other =>
    cases second with
    | kind => rfl
    | content => exact absurd rfl other
    | unreadable => exact absurd rfl other
  | content =>
    cases second with
    | kind other => exact absurd rfl other
    | content => rfl
  | unreadable refused =>
    cases second with
    | kind other => exact absurd rfl other
    | unreadable refused' => rw [Except.error.inj (refused.symm.trans refused')]

theorem memberKind_of_matches {tree : Outline ExpectedFile} {member : Member}
    (matched : Matches codec tree member) : memberKind member = storedKind tree := by
  unfold Matches at matched
  split at matched
  · rfl
  · rfl
  · rfl
  · cases matched
  · cases matched
  · cases matched

theorem not_differs_of_matches {tree : Outline ExpectedFile} {member : Member}
    {difference : Difference}
    (matched : Matches codec tree member) : ¬ Differs codec tree member difference := by
  intro differs
  cases differs with
  | kind other => exact other (memberKind_of_matches matched)
  | content other => exact other matched
  | unreadable refused =>
    obtain ⟨members, read, _⟩ := matched
    rw [refused] at read
    cases read

theorem matchesEach_inside {tree : Outline ExpectedFile} {member : Member} {children : Expectation}
    {inner : List Member} (matched : Matches codec tree member)
    (opened : inside? codec tree member = some (children, inner)) :
    MatchesEach codec children inner := by
  unfold inside? at opened
  split at opened
  · cases opened
    exact matched
  · obtain ⟨members, read, each⟩ := matched
    rw [read] at opened
    cases opened
    exact each
  · cases opened

theorem not_differs_of_inside {tree : Outline ExpectedFile} {member : Member}
    {contents : Expectation × List Member} {difference : Difference}
    (opened : inside? codec tree member = some contents) :
    ¬ Differs codec tree member difference := by
  intro differs
  cases differs with
  | kind other =>
    unfold inside? at opened
    split at opened
    · exact other rfl
    · exact other rfl
    · cases opened
  | content other => cases opened
  | unreadable refused =>
    rw [inside?, refused] at opened
    cases opened

/-- Names that are the same are the same at each position. -/
theorem not_fails_name (names : members.map Member.name = expected.map nameOf) (index : Nat) :
    ¬ (Check.name index).Fails codec expected members := by
  rintro ⟨path, found, other, _⟩
  rw [← List.getElem?_map, ← List.getElem?_map, names] at other
  exact other rfl

theorem matches_at {index : Nat} {tree : Outline ExpectedFile} {member : Member}
    (each : List.Forall₂ (Matches codec) expected members) (wanted : expected[index]? = some tree)
    (actual : members[index]? = some member) : Matches codec tree member := by
  obtain ⟨bound, rfl⟩ := List.getElem?_eq_some_iff.mp wanted
  obtain ⟨bound', rfl⟩ := List.getElem?_eq_some_iff.mp actual
  exact each.get bound bound'

/-- No comparison fails where everything is what is expected, by induction on how deep it is. -/
theorem not_fails_of_matches (matched : MatchesEach codec expected members) (check : Check) :
    ¬ check.Fails codec expected members := by
  induction check generalizing expected members with
  | name index => exact not_fails_name (matchesEach_iff.mp matched).1 index
  | item index =>
    rintro ⟨path, found, tree, member, difference, wanted, actual, differs, _⟩
    have each := (matchesEach_iff.mp matched).2
    exact not_differs_of_matches (matches_at each wanted actual) differs
  | inside index check ih =>
    rintro ⟨path, found, tree, member, children, inner, wanted, actual, opened, deeper⟩
    have each := (matchesEach_iff.mp matched).2
    exact ih (matchesEach_inside (matches_at each wanted actual) opened) ⟨_, _, deeper⟩

/-- A comparison that finds a mismatch in the container at a path, while all those before it find
none. -/
def Check.IsFirst (codec : Codec) (check : Check) (path : Path) (expected : Expectation)
    (members : List Member) (found : Mismatch) : Prop :=
  check.Finds codec path expected members found ∧
    ∀ earlier : Check, earlier.Precedes check → ¬ earlier.Fails codec expected members

theorem Check.Finds.unique {check : Check} {found' : Mismatch}
    (first : check.Finds codec path expected members found)
    (second : check.Finds codec path expected members found') : found = found' := by
  induction check generalizing path expected members with
  | name index =>
    obtain ⟨_, name, told, rfl⟩ := first
    obtain ⟨_, name', told', rfl⟩ := second
    rw [Option.some.inj (told.symm.trans told')]
  | item index =>
    obtain ⟨tree, member, difference, wanted, actual, differs, rfl⟩ := first
    obtain ⟨tree', member', difference', wanted', actual', differs', rfl⟩ := second
    obtain rfl := Option.some.inj (wanted.symm.trans wanted')
    obtain rfl := Option.some.inj (actual.symm.trans actual')
    rw [differs.unique differs']
  | inside index check ih =>
    obtain ⟨tree, member, children, inner, wanted, actual, opened, deeper⟩ := first
    obtain ⟨tree', member', children', inner', wanted', actual', opened', deeper'⟩ := second
    obtain rfl := Option.some.inj (wanted.symm.trans wanted')
    obtain rfl := Option.some.inj (actual.symm.trans actual')
    obtain ⟨rfl, rfl⟩ := Prod.mk.inj (Option.some.inj (opened.symm.trans opened'))
    exact ih deeper deeper'

/-- What is found lies below the path of the container. -/
theorem Check.Finds.below {check : Check} (finds : check.Finds codec path expected members found) :
    ∃ name rest, found.path.names = path.names ++ name :: rest := by
  induction check generalizing path expected members with
  | name index =>
    obtain ⟨_, name, _, rfl⟩ := finds
    exact ⟨name, [], rfl⟩
  | item index =>
    obtain ⟨tree, _, _, _, _, _, rfl⟩ := finds
    exact ⟨nameOf tree, [], rfl⟩
  | inside index check ih =>
    obtain ⟨tree, _, _, _, _, _, _, deeper⟩ := finds
    obtain ⟨name, rest, below⟩ := ih deeper
    exact ⟨nameOf tree, name :: rest, below.trans (List.append_assoc ..)⟩

/-- There is one first difference, because of any two comparisons one comes first. -/
theorem Check.IsFirst.unique {check check' : Check} {found' : Mismatch}
    (first : check.IsFirst codec path expected members found)
    (second : check'.IsFirst codec path expected members found') : found = found' := by
  rcases check.precedes_total check' with before | rfl | after
  · exact absurd ⟨_, _, first.1⟩ (second.2 check before)
  · exact first.1.unique second.1
  · exact absurd ⟨_, _, second.1⟩ (first.2 check' after)

theorem firstDifference_eq_some {wanted actual : List Name} {name : Name}
    (differs : firstDifference wanted actual = some name) :
    ∃ index : Nat, wanted[index]? ≠ actual[index]? ∧ wanted[index]?.or actual[index]? = some name ∧
      ∀ earlier < index, wanted[earlier]? = actual[earlier]? := by
  induction wanted generalizing actual with
  | nil =>
    cases actual with
    | nil => cases differs
    | cons other others => exact ⟨0, by simp, differs, nofun⟩
  | cons first rest ih =>
    cases actual with
    | nil => exact ⟨0, by simp, differs, nofun⟩
    | cons other others =>
      by_cases same : first = other
      · rw [firstDifference, if_pos same] at differs
        obtain ⟨index, unequal, told, before⟩ := ih differs
        refine ⟨index + 1, unequal, told, fun earlier bound => ?_⟩
        cases earlier with
        | zero => exact congrArg some same
        | succ earlier => exact before earlier (Nat.lt_of_succ_lt_succ bound)
      · rw [firstDifference, if_neg same] at differs
        exact ⟨0, by simpa using same, differs, nofun⟩

/-- Names that are different are told of at the first position where they are. -/
theorem compareNames_first (refused : compareNames path expected members = .error found) :
    ∃ index, (Check.name index).IsFirst codec path expected members found := by
  unfold compareNames at refused
  split at refused
  · cases refused
  · next name differs =>
    obtain rfl := Except.error.inj refused
    obtain ⟨index, unequal, told, before⟩ := firstDifference_eq_some differs
    simp only [List.getElem?_map] at unequal told before
    refine ⟨index, ⟨unequal, name, told, rfl⟩, fun earlier precedes => ?_⟩
    cases earlier with
    | name index' =>
      rintro ⟨_, _, other, _⟩
      exact other (before index' precedes)
    | item index' => exact precedes.elim
    | inside index' check => exact precedes.elim

/-- What a member and what is expected in its place are found to differ in: what they are
themselves, or the first difference inside. -/
theorem compareItem_first {tree : Outline ExpectedFile} {member : Member}
    (inner : ∀ kind name children, tree = .container kind name children → ∀ members found,
      (compareNames path children members >>= fun _ => compareItems codec path children members) =
        .error found → ∃ check : Check, check.IsFirst codec path children members found)
    (refused : compareItem codec path tree member = .error found) :
    (∃ difference, Differs codec tree member difference ∧ found = ⟨path, difference⟩) ∨
      ∃ children members, inside? codec tree member = some (children, members) ∧
        ∃ check : Check, check.IsFirst codec path children members found := by
  cases tree with
  | leaf file =>
    cases member with
    | file name content =>
      simp only [compareItem] at refused
      split at refused
      · cases refused
      · next other =>
        obtain rfl := Except.error.inj refused
        exact .inl ⟨_, .content (Ne.symm other), rfl⟩
    | directory name members =>
      obtain rfl := Except.error.inj refused
      exact .inl ⟨_, .kind Kind.noConfusion, rfl⟩
  | container kind name children =>
    cases kind with
    | directory =>
      cases member with
      | file name content =>
        obtain rfl := Except.error.inj refused
        exact .inl ⟨_, .kind Kind.noConfusion, rfl⟩
      | directory name members => exact .inr ⟨children, members, rfl, inner _ _ _ rfl _ _ refused⟩
    | archive =>
      cases member with
      | directory name members =>
        obtain rfl := Except.error.inj refused
        exact .inl ⟨_, .kind Kind.noConfusion, rfl⟩
      | file name content =>
        simp only [compareItem] at refused
        split at refused
        · next fault unread =>
          obtain rfl := Except.error.inj refused
          exact .inl ⟨_, .unreadable unread, rfl⟩
        · next members read =>
          refine .inr ⟨children, members, ?_, inner _ _ _ rfl _ _ refused⟩
          rw [inside?, read]
          rfl

/-- One by one, the members before the one that is told of match. -/
theorem compareItems_eq_error (refused : compareItems codec path expected members = .error found) :
    ∃ (index : Nat) (tree : _) (member : _), expected[index]? = some tree ∧
      members[index]? = some member ∧
      compareItem codec (path.push (nameOf tree)) tree member = .error found ∧
      ∀ earlier < index, ∀ tree member, expected[earlier]? = some tree →
        members[earlier]? = some member → Matches codec tree member := by
  induction expected generalizing members with
  | nil => cases refused
  | cons first rest ih =>
    cases members with
    | nil => cases refused
    | cons member others =>
      rw [compareItems] at refused
      rcases bind_error_iff.mp refused with here | ⟨_, passed, later⟩
      · exact ⟨0, first, member, rfl, rfl, here, fun _ before => absurd before (Nat.not_lt_zero _)⟩
      · obtain ⟨index, tree, member', wanted, actual, failed, before⟩ := ih later
        refine ⟨index + 1, tree, member', wanted, actual, failed, fun earlier bound => ?_⟩
        cases earlier with
        | zero =>
          rintro _ _ ⟨⟩ ⟨⟩
          exact (compareItem_eq_ok first _ _).mp passed
        | succ earlier => exact before earlier (Nat.lt_of_succ_lt_succ bound)

/-- Nothing is different before a position up to which all names are the same and the members match.
-/
theorem not_fails_before {index : Nat} (names : members.map Member.name = expected.map nameOf)
    (before : ∀ earlier < index, ∀ tree member, expected[earlier]? = some tree →
      members[earlier]? = some member → Matches codec tree member) :
    (∀ earlier : Check, earlier.Precedes (.item index) → ¬ earlier.Fails codec expected
      members) := by
  intro earlier precedes
  cases earlier with
  | name index' => exact not_fails_name names index'
  | item index' =>
    rintro ⟨_, _, tree, member, difference, wanted, actual, differs, _⟩
    exact not_differs_of_matches (before index' precedes tree member wanted actual) differs
  | inside index' check =>
    rintro ⟨_, _, tree, member, children, inner, wanted, actual, opened, deeper⟩
    have matched := before index' precedes tree member wanted actual
    exact not_fails_of_matches (matchesEach_inside matched opened) check ⟨_, _, deeper⟩

/-- The comparison of a container, given that each of the trees in it is compared in this order
inside. -/
theorem compareBoth_first
    (each : ∀ tree ∈ expected, ∀ kind name children, tree = .container kind name children →
      ∀ path members found, (compareNames path children members >>= fun _ =>
        compareItems codec path children members) = .error found →
          ∃ check : Check, check.IsFirst codec path children members found)
    (refused : (compareNames path expected members >>= fun _ =>
      compareItems codec path expected members) = .error found) :
    ∃ check : Check, check.IsFirst codec path expected members found := by
  rcases bind_error_iff.mp refused with unequal | ⟨_, equal, later⟩
  · obtain ⟨index, first⟩ := compareNames_first unequal
    exact ⟨_, first⟩
  have names := compareNames_eq_ok.mp equal
  obtain ⟨index, tree, member, wanted, actual, failed, before⟩ := compareItems_eq_error later
  have settled := not_fails_before names before
  have present := List.mem_of_getElem? wanted
  rcases compareItem_first
    (fun kind name children same => each tree present kind name children same _)
    failed with ⟨difference, differs, rfl⟩ | ⟨children, inner, opened, check, finds, first⟩
  · exact ⟨.item index, ⟨tree, member, difference, wanted, actual, differs, rfl⟩, settled⟩
  refine ⟨.inside index check, ⟨tree, member, children, inner, wanted, actual, opened, finds⟩, ?_⟩
  intro earlier precedes
  by_cases above : earlier.Precedes (.item index)
  · exact settled earlier above
  cases earlier with
  | name index' => exact absurd trivial above
  | item index' =>
    obtain rfl : index' = index := Nat.le_antisymm precedes (Nat.not_lt.mp above)
    rintro ⟨_, _, tree', member', difference, wanted', actual', differs, _⟩
    obtain rfl := Option.some.inj (wanted.symm.trans wanted')
    obtain rfl := Option.some.inj (actual.symm.trans actual')
    exact not_differs_of_inside opened differs
  | inside index' check' =>
    obtain ⟨rfl, deeper⟩ := precedes.resolve_left above
    rintro ⟨_, _, tree', member', children', inner', wanted', actual', opened', finds'⟩
    obtain rfl := Option.some.inj (wanted.symm.trans wanted')
    obtain rfl := Option.some.inj (actual.symm.trans actual')
    obtain ⟨rfl, rfl⟩ := Prod.mk.inj (Option.some.inj (opened.symm.trans opened'))
    exact first check' deeper ⟨_, _, finds'⟩

/-- Anything that is expected is compared in this order inside. -/
theorem compare_inside_first (tree : Outline ExpectedFile) :
    ∀ kind name children, tree = .container kind name children → ∀ path members found,
      (compareNames path children members >>= fun _ => compareItems codec path children members) =
        .error found → ∃ check : Check, check.IsFirst codec path children members found := by
  induction tree using Outline.induct with
  | leaf file => nofun
  | container kind name children ih =>
    rintro _ _ _ ⟨⟩ path members found refused
    exact compareBoth_first ih refused

/-- The comparison stops at the first difference, and exactly there. -/
theorem compare_eq_error {entries : List Entry} :
    compare codec expected entries = .error found ↔
      ∃ check : Check, check.IsFirst codec .root expected (Entry.toMembers entries) found := by
  have forward {found : Mismatch} (refused : compare codec expected entries = .error found) :
      ∃ check : Check, check.IsFirst codec .root expected (Entry.toMembers entries) found :=
    compareBoth_first (fun tree _ => compare_inside_first tree) refused
  refine ⟨forward, fun ⟨check, first⟩ => ?_⟩
  cases compared : compare codec expected entries with
  | ok _ =>
    have matched := standsEach_iff.mp (compare_eq_ok.mp compared)
    exact absurd ⟨_, _, first.1⟩ (not_fails_of_matches matched check)
  | error other =>
    obtain ⟨check', first'⟩ := forward compared
    rw [first'.unique first]

/-- A mismatch that is reported of an output is what the first comparison that fails finds. Depth
first everything before it is as expected too, except for what the entries before it in its
container are and hold, if it is one of names. -/
theorem verify_eq_mismatch {artifact : String} {entries : List Entry} {builder : ExpectationBuilder}
    {found : Mismatch} :
    verify artifact (some entries) builder codec = .error (.mismatch artifact found) ↔
      ∃ expected, builder.finish = .ok expected ∧ ∃ check : Check,
        check.Finds codec .root expected (Entry.toMembers entries) found ∧
        (∀ earlier : Check, earlier.Precedes check →
          ¬ earlier.Fails codec expected (Entry.toMembers entries)) ∧
        ∀ other : Check, other.Fails codec expected (Entry.toMembers entries) →
          other.place < check.place → check.Overtakes other := by
  have reported : verify artifact (some entries) builder codec = .error (.mismatch artifact found) ↔
      ∃ expected, builder.finish = .ok expected ∧
        compare codec expected entries = .error found := by
    cases finished : builder.finish with
    | error fault => simp [verify, finished]
    | ok expected =>
      simp only [verify, finished, Except.ok.injEq, exists_eq_left']
      cases compare codec expected entries <;> simp [Except.mapError]
  rw [reported]
  refine exists_congr fun expected => and_congr_right fun _ => ?_
  rw [compare_eq_error]
  refine exists_congr fun check => and_congr_right fun _ => (and_iff_left_of_imp ?_).symm
  intro settled other fails before
  exact (Check.precedes_or_overtakes before).resolve_left fun precedes =>
    settled other precedes fails

end Depot.Expectation

namespace Depot.Sample

open Packager (Job run start)

/-- A build of a directory with the first file and of the second file beside it. -/
def grouped : Except PackagerFault Report × Packager × Disk :=
  run ((single [.container .directory bundle [.leaf (.file ⟨0, 1⟩)],
    .leaf (.file ⟨0, 2⟩)]).everything
    ((Sessions.start 1).run filing).workspace) (start .standard) .blank

/-- The description of a directory with a file and of another file beside it. -/
def described (content : Bytes) (name : String) : ExpectationBuilder :=
  ExpectationBuilder.file
    (ExpectationBuilder.file (Outline.Builder.start.enter .directory "bundle") "left" content).leave
    name empty

def awaited (content : Bytes) (name : Name) : Expectation :=
  [.container .directory bundle [.leaf ⟨left, content⟩], .leaf ⟨name, empty⟩]

def strange : Name := ⟨Bytes.ofString "strange", by decide⟩

end Depot.Sample

namespace Depot.Expectation

open Sample

theorem members_of_awaited {content : Bytes} {name : Name} {members : List Member}
    (matched : MatchesEach .stored (awaited content name) members) :
    members = [.directory bundle [.file left content], .file name empty] := by
  obtain ⟨names, each⟩ := matchesEach_iff.mp matched
  obtain ⟨outer, _, first, later, rfl⟩ := List.forall₂_cons_left_iff.mp each
  obtain ⟨beside, _, second, last, rfl⟩ := List.forall₂_cons_left_iff.mp later
  obtain rfl := List.forall₂_nil_left_iff.mp last
  cases outer with
  | file => exact absurd first id
  | directory outer inner =>
    obtain ⟨names', each⟩ := matchesEach_iff.mp first
    obtain ⟨inside, _, third, last, rfl⟩ := List.forall₂_cons_left_iff.mp each
    obtain rfl := List.forall₂_nil_left_iff.mp last
    cases inside with
    | directory => exact absurd third id
    | file inside content' =>
      cases beside with
      | directory => exact absurd second id
      | file beside content'' =>
        cases third
        cases second
        cases names
        cases names'
        rfl

/-- A name at the top is told of, although the content of a file in the directory before it, which
comes first depth first, is not what is expected either. -/
theorem names_before_contents :
    grouped.1 = .ok ⟨["app"], [], ⟨2, 0, 0⟩, 0⟩ ∧
      (described newText "strange").finish = .ok (awaited newText strange) ∧
      ∃ entries found, grouped.2.1.output? "app" = some entries ∧
        verify "app" (some entries) (described newText "strange") = .error (.mismatch "app" found) ∧
        found.path = ⟨[strange]⟩ ∧
        ¬ ∃ (check : Check) (found' : Mismatch),
          check.Finds .stored .root (awaited newText strange) (Entry.toMembers entries) found' ∧
          found'.path = found.path ∧ ∀ earlier : Check, earlier.place < check.place →
            ¬ earlier.Fails .stored (awaited newText strange) (Entry.toMembers entries) := by
  have succeeded : grouped.1 = .ok ⟨["app"], [], ⟨2, 0, 0⟩, 0⟩ ∧
      (grouped.2.1.output? "app").any (fun entries =>
        decide (verify "app" (some entries) (described text "right") = .ok ())) = true := by
    simp only [grouped, single, Digest.blake3_eq_quick]
    decide +kernel
  obtain ⟨entries, output⟩ := Option.isSome_iff_exists.mp (Option.isSome_of_any succeeded.2)
  rw [output] at succeeded
  have stands : StandsEach .stored (awaited text right) entries :=
    (verify_finished rfl "app" entries).mp (of_decide_eq_true succeeded.2)
  have members := members_of_awaited (standsEach_iff.mp stands)
  obtain ⟨found, refused, path⟩ : ∃ found, compare .stored (awaited newText strange) entries =
      .error found ∧ found.path = ⟨[strange]⟩ := by
    rw [compare, members]
    exact ⟨_, rfl, rfl⟩
  refine ⟨succeeded.1, rfl, entries, found, output, ?_, path, ?_⟩
  · exact (congrArg (Except.mapError (Fault.mismatch "app")) refused :)
  rw [members, path]
  rintro ⟨check, found', finds, same, first⟩
  have deeper : (Check.inside 0 (.item 0)).Fails .stored (awaited newText strange)
      [.directory bundle [.file left text], .file right empty] :=
    ⟨.root, _, _, _, _, _, rfl, rfl, rfl, _, _, _, rfl, rfl, .content (by decide), rfl⟩
  refine first (.inside 0 (.item 0)) ?_ deeper
  cases check with
  | name index =>
    cases index with
    | zero => exact absurd rfl finds.1
    | succ index => exact List.cons_lt_cons_iff.mpr (.inl index.succ_pos)
  | item index =>
    obtain ⟨tree, member, difference, wanted, _, _, rfl⟩ := finds
    cases index with
    | zero =>
      cases wanted
      cases same
    | succ index => exact List.cons_lt_cons_iff.mpr (.inl index.succ_pos)
  | inside index check =>
    obtain ⟨tree, member, children, inner, wanted, _, _, finds⟩ := finds
    cases index with
    | zero =>
      cases wanted
      obtain ⟨name, rest, below⟩ := finds.below
      rw [same] at below
      cases below
    | succ index => exact List.cons_lt_cons_iff.mpr (.inl index.succ_pos)

end Depot.Expectation

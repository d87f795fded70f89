import Depot.Archive.Reader
import Depot.Proofs.Archive.Shape
import Depot.Proofs.Outcome

set_option autoImplicit false

/-
What the reads of an archive accept. Each read that succeeds has taken the one form that its result
is written in, and each such form is read.
-/

namespace Depot.Archive

open Member (DistinctNames EachMeasurable Readable EachReadable levels)

namespace ReaderM

variable {α β : Type}

theorem bind_eq_bind {first first' : ReaderM α} {next next' : α → ReaderM β} {input : Bytes}
    (sameFirst : first input = first' input)
    (sameNext : ∀ middle left, first input = .ok middle left → next middle left =
      next' middle left) :
    (first >>= next) input = (first' >>= next') input := by
  cases read : first input with
  | ok middle left =>
    rw [bind_done read, bind_done (sameFirst ▸ read), sameNext middle left read]
  | error fault left => rw [bind_failed read, bind_failed (sameFirst ▸ read)]

theorem pure_eq_ok {input rest : Bytes} {value result : α} :
    (pure value : ReaderM α) input = .ok result rest ↔ value = result ∧ input = rest := by
  change EStateM.Result.ok value input = _ ↔ _
  simp

theorem throw_ne_ok {input rest : Bytes} {fault : ReadFault} {value : α} :
    (throw fault : ReaderM α) input ≠ .ok value rest := by
  intro equal
  cases equal

end ReaderM

namespace Reader

open ReaderM

theorem take_eq (count : Nat) (input : Bytes) :
    take count input = .ok (input.take count) (input.drop count) := rfl

theorem exactly_eq_ok {count : Nat} {input taken rest : Bytes} :
    exactly count input = .ok taken rest ↔ taken.length = count ∧ input = taken ++ rest := by
  unfold exactly
  rw [bind_done (take_eq count input)]
  constructor
  · intro read
    split at read
    · next enough =>
      obtain ⟨rfl, rfl⟩ := pure_eq_ok.mp read
      exact ⟨enough, (List.take_append_drop count input).symm⟩
    · exact absurd read throw_ne_ok
  · rintro ⟨rfl, rfl⟩
    simp only [List.take_left', List.drop_left', ↓reduceIte]
    rfl

theorem number_eq_ok {input rest : Bytes} {value : Nat} :
    number input = .ok value rest ↔ value < Bytes.limit 8 ∧ input =
      Bytes.ofNat 8 value ++ rest := by
  simp only [number, bind_done_iff, exactly_eq_ok, pure_eq_ok]
  constructor
  · rintro ⟨digits, left, ⟨eight, rfl⟩, rfl, rfl⟩
    refine ⟨eight ▸ Bytes.toNat_lt digits, ?_⟩
    rw [← eight, Bytes.ofNat_toNat]
  · rintro ⟨fits, rfl⟩
    exact ⟨_, rest, ⟨Bytes.length_ofNat 8 value, rfl⟩, Bytes.toNat_ofNat 8 value fits, rfl⟩

theorem padding_eq_ok {length : Nat} {input rest : Bytes} {done : Unit} :
    padding length input = .ok done rest ↔ input = Archive.padding length ++ rest := by
  simp only [padding, bind_done_iff, exactly_eq_ok]
  constructor
  · rintro ⟨zeros, left, ⟨_, rfl⟩, read⟩
    split at read
    · next same =>
      obtain ⟨_, rfl⟩ := pure_eq_ok.mp read
      rw [same]
    · exact absurd read throw_ne_ok
  · rintro rfl
    exact ⟨_, rest, ⟨rfl, rfl⟩, by simp only [↓reduceIte]; rfl⟩

theorem flatten_words (bytes : Bytes) : (words bytes).flatten = bytes := by
  fun_induction words bytes with
  | case1 a b c d e f g h rest ih => simp [ih]
  | case2 => rfl
  | case3 rest => simp

theorem expectWords_eq_ok {list : List Bytes} {input rest : Bytes} {done : Unit} :
    expectWords list input = .ok done rest ↔ input = list.flatten ++ rest := by
  induction list generalizing input with
  | nil => simp only [expectWords, pure_eq_ok, List.flatten_nil, List.nil_append, true_and]
  | cons word others ih =>
    simp only [expectWords, bind_done_iff, exactly_eq_ok, List.flatten_cons, List.append_assoc]
    constructor
    · rintro ⟨taken, left, ⟨_, rfl⟩, read⟩
      split at read
      · next same => rw [same, ih.mp read]
      · exact absurd read throw_ne_ok
    · rintro rfl
      exact ⟨word, _, ⟨rfl, rfl⟩, by simpa only [↓reduceIte] using ih.mpr rfl⟩

theorem expect_eq_ok {token input rest : Bytes} {done : Unit} :
    expect token input = .ok done rest ↔ input = token ++ rest := by
  rw [expect, expectWords_eq_ok, flatten_words]

/-- Two tokens of at least one word each, which differ in the first one. -/
def Apart (first second : Bytes) : Prop :=
  8 ≤ first.length ∧ 8 ≤ second.length ∧ first.take 8 ≠ second.take 8

theorem take_append_expect {token left rest : Bytes} {done : Unit}
    (read : expect (token.drop 8) left = .ok done rest) : token.take 8 ++ left = token ++ rest := by
  rw [expect_eq_ok.mp read, ← List.append_assoc, List.take_append_drop]

theorem either_eq_ok {first second input rest : Bytes} {chosen : Bool}
    (apart : Apart first second) :
    either first second input = .ok chosen rest ↔
      input = (if chosen then second else first) ++ rest := by
  obtain ⟨longFirst, longSecond, different⟩ := apart
  simp only [either, bind_done_iff, exactly_eq_ok]
  constructor
  · rintro ⟨word, left, ⟨_, rfl⟩, read⟩
    split at read
    · next isFirst =>
      obtain ⟨_, _, expected, returned⟩ := bind_done_iff.mp read
      obtain ⟨rfl, rfl⟩ := pure_eq_ok.mp returned
      rw [isFirst]
      exact take_append_expect expected
    · split at read
      · next isSecond =>
        obtain ⟨_, _, expected, returned⟩ := bind_done_iff.mp read
        obtain ⟨rfl, rfl⟩ := pure_eq_ok.mp returned
        rw [isSecond]
        exact take_append_expect expected
      · exact absurd read throw_ne_ok
  · rintro rfl
    cases chosen with
    | false =>
      refine ⟨first.take 8, first.drop 8 ++ rest, ⟨by simp [longFirst], ?_⟩, ?_⟩
      · simp [← List.append_assoc]
      · rw [if_pos rfl]
        exact bind_done_iff.mpr ⟨(), rest, expect_eq_ok.mpr rfl, pure_eq_ok.mpr ⟨rfl, rfl⟩⟩
    | true =>
      refine ⟨second.take 8, second.drop 8 ++ rest, ⟨by simp [longSecond], ?_⟩, ?_⟩
      · simp [← List.append_assoc]
      · rw [if_neg different.symm, if_pos rfl]
        exact bind_done_iff.mpr ⟨(), rest, expect_eq_ok.mpr rfl, pure_eq_ok.mpr ⟨rfl, rfl⟩⟩

theorem nodeIsDirectory_eq_ok {input rest : Bytes} {isDirectory : Bool} :
    nodeIsDirectory input = .ok isDirectory rest ↔
      input = (if isDirectory then Archive.directory else regular) ++ rest :=
  either_eq_ok ⟨by decide, by decide, by decide⟩

theorem anotherEntry_eq_ok {input rest : Bytes} {another : Bool} :
    anotherEntry input = .ok another rest ↔
      input = (if another then entry else closing) ++ rest :=
  either_eq_ok ⟨by decide, by decide, by decide⟩

theorem name_eq_ok {seen : List Name} {input rest : Bytes} {result : Name} :
    name seen input = .ok result rest ↔ result ∉ seen ∧ input = string result.bytes ++ rest := by
  simp only [name, bind_done_iff, number_eq_ok]
  constructor
  · rintro ⟨length, left, ⟨_, rfl⟩, read⟩
    split at read
    · obtain ⟨_, _, thrown, _⟩ := bind_done_iff.mp read
      exact absurd thrown throw_ne_ok
    simp only [bind_done_iff, exactly_eq_ok, padding_eq_ok] at read
    obtain ⟨bytes, _, ⟨rfl, rfl⟩, _, left, rfl, read⟩ := read
    cases named : Name.ofBytes bytes with
    | error error =>
      rw [named] at read
      exact absurd read throw_ne_ok
    | ok found =>
      simp only [named] at read
      split at read
      · exact absurd read throw_ne_ok
      · next fresh =>
        obtain ⟨rfl, rfl⟩ := pure_eq_ok.mp read
        rw [← Name.bytes_of_ofBytes named]
        exact ⟨fresh, by simp only [string, List.append_assoc]⟩
  · rintro ⟨fresh, rfl⟩
    have short := ((Name.fault?_eq_none_iff result.bytes).mp result.valid).2.2.2.1
    refine ⟨result.bytes.length, result.bytes ++ (Archive.padding result.bytes.length ++ rest),
      ⟨?_, by simp only [string, List.append_assoc]⟩, ?_⟩
    · simp only [Name.maxLength] at short
      simp only [Bytes.limit]
      omega
    · rw [if_neg (Nat.not_lt.mpr short)]
      simp only [bind_done_iff, exactly_eq_ok, padding_eq_ok]
      refine ⟨result.bytes, _, ⟨rfl, rfl⟩, (), rest, rfl, ?_⟩
      simp only [Name.ofBytes_bytes, fresh, ↓reduceIte]
      rfl

theorem content_eq_ok {input rest : Bytes} {result : Bytes} :
    content input = .ok result rest ↔
      result.length < Bytes.limit 8 ∧ input = string result ++ (closing ++ rest) := by
  simp only [content, bind_done_iff, number_eq_ok, take_eq]
  constructor
  · rintro ⟨length, left, ⟨fits, rfl⟩, taken, _, ⟨rfl, rfl⟩, read⟩
    split at read
    · obtain ⟨_, _, thrown, _⟩ := bind_done_iff.mp read
      exact absurd thrown throw_ne_ok
    · next enough =>
      have enough : (left.take length).length = length := Decidable.not_not.mp enough
      simp only [bind_done_iff, padding_eq_ok, expect_eq_ok, pure_eq_ok] at read
      obtain ⟨_, _, padded, _, _, rfl, rfl, rfl⟩ := read
      refine ⟨by rwa [enough], ?_⟩
      rw [string, enough, List.append_assoc, List.append_assoc, ← padded, List.take_append_drop]
  · rintro ⟨fits, rfl⟩
    refine ⟨result.length, result ++ (Archive.padding result.length ++ (closing ++ rest)),
      ⟨fits, by simp only [string, List.append_assoc]⟩, result, _,
      by rw [List.take_left, List.drop_left], ?_⟩
    rw [if_neg (not_not_intro rfl)]
    simp only [bind_done_iff, padding_eq_ok, expect_eq_ok, pure_eq_ok]
    exact ⟨(), _, rfl, (), rest, rfl, trivial, rfl⟩

/-- A read takes the rest of the nodes of directories with fewer than `depth` levels inside, from
inputs shorter than `bound`. -/
def ReadsDirectory (inner : ReaderM (List Member)) (bound depth : Nat) : Prop :=
  ∀ {input rest : Bytes} {members : List Member}, input.length < bound →
    (inner input = .ok members rest ↔
      (levels members < depth ∧ DistinctNames members ∧ EachMeasurable members) ∧
        input = layoutEntries members ++ (closing ++ rest))

section

variable {inner : ReaderM (List Member)} {bound depth : Nat}

theorem member_eq_ok (reads : ReadsDirectory inner bound depth) {found : Name}
    {input rest : Bytes} {item : Member} (short : input.length < bound) :
    member inner found input = .ok item rest ↔
      item.name = found ∧ Readable depth item ∧ input = layout item ++ rest := by
  have shorter {token left : Bytes} (taken : input = token ++ left) : left.length < bound := by
    rw [taken, List.length_append] at short
    omega
  simp only [member, bind_done_iff, nodeIsDirectory_eq_ok]
  constructor
  · rintro ⟨isDirectory, left, taken, read⟩
    cases isDirectory with
    | false =>
      simp only [Bool.false_eq_true, ↓reduceIte, bind_done_iff, content_eq_ok, pure_eq_ok]
        at read taken
      obtain ⟨content, _, ⟨fits, rfl⟩, rfl, rfl⟩ := read
      exact ⟨rfl, (Member.readable_file ..).mpr fits, by simpa only [layout, List.append_assoc]⟩
    | true =>
      simp only [↓reduceIte, bind_done_iff, pure_eq_ok] at read taken
      obtain ⟨children, _, inside, rfl, rfl⟩ := read
      obtain ⟨kind, rfl⟩ := (reads (shorter taken)).mp inside
      exact ⟨rfl, (Member.readable_directory ..).mpr kind,
        by simpa only [layout, List.append_assoc]⟩
  · rintro ⟨rfl, readable, taken⟩
    cases item with
    | file name content =>
      refine ⟨false, string content ++ (closing ++ rest), ?_, ?_⟩
      · simpa only [layout, Bool.false_eq_true, ↓reduceIte, List.append_assoc] using taken
      · simp only [Bool.false_eq_true, ↓reduceIte, bind_done_iff, content_eq_ok, pure_eq_ok]
        exact ⟨content, rest, ⟨(Member.readable_file ..).mp readable, rfl⟩, rfl, rfl⟩
    | directory name children =>
      have taken : input = Archive.directory ++ (layoutEntries children ++ (closing ++ rest)) := by
        simpa only [layout, List.append_assoc] using taken
      refine ⟨true, layoutEntries children ++ (closing ++ rest), by rw [taken]; rfl, ?_⟩
      simp only [↓reduceIte, bind_done_iff, pure_eq_ok]
      exact ⟨children, rest, (reads (shorter taken)).mpr
        ⟨(Member.readable_directory ..).mp readable, rfl⟩, rfl, rfl⟩

/-- Members that can be read after members of the given names. -/
def Follows (depth : Nat) (seen : List Name) (members : List Member) : Prop :=
  (∀ item ∈ members, item.name ∉ seen) ∧ EachReadable depth members

theorem follows_cons (depth : Nat) (seen : List Name) (item : Member) (others : List Member) :
    Follows depth seen (item :: others) ↔
      item.name ∉ seen ∧ Readable depth item ∧ Follows depth (item.name :: seen) others := by
  simp only [Follows, List.forall_mem_cons, Member.eachReadable_cons]
  simp only [List.mem_map, not_exists, not_and, List.mem_cons, not_or, forall_and]
  constructor
  · rintro ⟨⟨fresh, apart⟩, different, readable, others⟩
    exact ⟨fresh, readable, ⟨different, apart⟩, others⟩
  · rintro ⟨fresh, readable, ⟨different, apart⟩, others⟩
    exact ⟨⟨fresh, apart⟩, different, readable, others⟩

theorem entries_eq_ok (reads : ReadsDirectory inner bound depth) {count : Nat} {seen : List Name}
    {input rest : Bytes} {members : List Member} (enough : input.length < count)
    (short : input.length < bound) :
    entries inner count seen input = .ok members rest ↔
      Follows depth seen members ∧ input = layoutEntries members ++ (closing ++ rest) := by
  induction count generalizing seen input members with
  | zero => omega
  | succ count ih =>
    -- Each entry starts with a token, so that fewer bytes are left for the entries after it.
    have shorter (front left : Bytes) (taken : input = entry ++ (front ++ left)) :
        left.length < count ∧ left.length < bound := by
      have opened : entry.length = 48 := by decide
      rw [taken, List.length_append, List.length_append, opened] at enough short
      omega
    simp only [entries, bind_done_iff, anotherEntry_eq_ok]
    constructor
    · rintro ⟨another, left, taken, read⟩
      cases another with
      | false =>
        simp only [Bool.false_eq_true, ↓reduceIte, pure_eq_ok] at read taken
        obtain ⟨rfl, rfl⟩ := read
        exact ⟨⟨by simp, Member.eachReadable_nil depth⟩, taken⟩
      | true =>
        simp only [↓reduceIte, bind_done_iff, name_eq_ok, expect_eq_ok, pure_eq_ok] at read taken
        obtain ⟨_, _, ⟨fresh, rfl⟩, _, left, rfl, item, _, single, _, _, rfl, others, _, more,
          rfl, rfl⟩ := read
        have leftShort := shorter (string _ ++ node) left
          (by simpa only [List.append_assoc] using taken)
        obtain ⟨rfl, readable, rfl⟩ := (member_eq_ok reads leftShort.2).mp single
        have moreShort := shorter (string _ ++ (node ++ (layout item ++ closing))) _
          (by simpa only [List.append_assoc] using taken)
        obtain ⟨follows, rfl⟩ := (ih moreShort.1 moreShort.2).mp more
        refine ⟨(follows_cons ..).mpr ⟨fresh, readable, follows⟩, ?_⟩
        simpa only [layoutEntries, List.append_assoc] using taken
    · rintro ⟨follows, taken⟩
      cases members with
      | nil => exact ⟨false, rest, taken, rfl⟩
      | cons item others =>
        obtain ⟨fresh, readable, follows⟩ := (follows_cons ..).mp follows
        simp only [layoutEntries, List.append_assoc] at taken
        have leftShort := (shorter (string item.name.bytes ++ node) _
          (by simpa only [List.append_assoc] using taken)).2
        have moreShort := shorter
          (string item.name.bytes ++ (node ++ (layout item ++ closing))) _
          (by simpa only [List.append_assoc] using taken)
        refine ⟨true, _, taken, ?_⟩
        simp only [↓reduceIte, bind_done_iff, name_eq_ok, expect_eq_ok, pure_eq_ok]
        exact ⟨item.name, _, ⟨fresh, rfl⟩, (), _, rfl, item, _,
          (member_eq_ok reads leftShort).mpr ⟨rfl, readable, rfl⟩, (), _, rfl, others, rest,
          (ih moreShort.1 moreShort.2).mpr ⟨follows, rfl⟩, rfl, rfl⟩

end

theorem directory_reads (bound depth : Nat) : ReadsDirectory (directory bound depth)
    bound depth := by
  induction depth with
  | zero =>
    intro input rest members _
    constructor
    · exact fun read => absurd read throw_ne_ok
    · rintro ⟨⟨impossible, _⟩, _⟩
      exact absurd impossible (Nat.not_lt_zero _)
  | succ depth reads =>
    intro input rest members short
    rw [directory, entries_eq_ok reads short short, Follows, EachReadable, Nat.lt_succ_iff]
    simp

theorem archiveWithin_eq_ok {bound : Nat} {input rest : Bytes} {members : List Member}
    (short : input.length < bound) :
    archiveWithin bound input = .ok members rest ↔
      rest = [] ∧ EachReadable maxDepth members ∧ input = layoutArchive members := by
  have shorter (token left : Bytes) (taken : input = opening ++ (token ++ left)) :
      left.length < bound := by
    rw [taken, List.length_append, List.length_append] at short
    omega
  simp only [archiveWithin, bind_done_iff, expect_eq_ok, nodeIsDirectory_eq_ok]
  constructor
  · rintro ⟨_, _, rfl, isDirectory, left, rfl, read⟩
    cases isDirectory with
    | false => exact absurd read throw_ne_ok
    | true =>
      simp only [↓reduceIte, bind_done_iff] at read
      obtain ⟨members', _, inside, left', _, ⟨⟩, read⟩ := read
      split at read
      · next nothing =>
        obtain ⟨rfl, rfl⟩ := pure_eq_ok.mp read
        obtain ⟨kind, rfl⟩ := (directory_reads bound (maxDepth + 1) (shorter _ _ rfl)).mp inside
        have nothing := List.isEmpty_iff.mp nothing
        subst nothing
        refine ⟨rfl, ⟨Nat.le_of_lt_succ kind.1, kind.2⟩, ?_⟩
        simp only [layoutArchive, ↓reduceIte, List.append_nil]
      · exact absurd read throw_ne_ok
  · rintro ⟨rfl, readable, rfl⟩
    refine ⟨(), _, rfl, true, _, rfl, ?_⟩
    simp only [↓reduceIte, bind_done_iff]
    have kind := And.intro (Nat.lt_succ_of_le readable.1) readable.2
    refine ⟨members, [], (directory_reads bound (maxDepth + 1) (shorter _ _ rfl)).mpr ⟨kind, ?_⟩,
      [], [], rfl, rfl⟩
    rw [List.append_nil]

theorem member_congr {inner inner' : ReaderM (List Member)} {found : Name} {input : Bytes}
    (same : ∀ left : Bytes, left.length ≤ input.length → inner left = inner' left) :
    member inner found input = member inner' found input := by
  refine bind_eq_bind rfl fun isDirectory left read => ?_
  have shorter := congrArg List.length (nodeIsDirectory_eq_ok.mp read)
  rw [List.length_append] at shorter
  cases isDirectory with
  | false => rfl
  | true => exact bind_eq_bind (same left (by omega)) fun _ _ _ => rfl

theorem entries_congr {inner inner' : ReaderM (List Member)} {bound depth : Nat}
    (reads : ReadsDirectory inner bound depth)
    (same : ∀ left : Bytes, left.length < bound → inner left = inner' left)
    {count count' : Nat} {seen : List Name} {input : Bytes} (short : input.length < bound)
    (enough : input.length < count) (enough' : input.length < count') :
    entries inner count seen input = entries inner' count' seen input := by
  induction count generalizing count' seen input with
  | zero => omega
  | succ count ih =>
    obtain ⟨count', rfl⟩ : ∃ lower, count' = lower + 1 := ⟨count' - 1, by omega⟩
    simp only [entries]
    refine bind_eq_bind rfl fun another left read => ?_
    cases another with
    | false => rfl
    | true =>
      have opened : entry.length = 48 := by decide
      have shorter := congrArg List.length (anotherEntry_eq_ok.mp read)
      simp only [↓reduceIte, List.length_append, opened] at shorter
      simp only [↓reduceIte]
      refine bind_eq_bind rfl fun found left₁ named => ?_
      have shorter₁ := congrArg List.length (name_eq_ok.mp named).2
      refine bind_eq_bind rfl fun _ left₂ expected => ?_
      have shorter₂ := congrArg List.length (expect_eq_ok.mp expected)
      simp only [List.length_append] at shorter₁ shorter₂
      refine bind_eq_bind (member_congr fun left _ => same left (by omega))
        fun item left₃ single => ?_
      have shorter₃ := congrArg List.length ((member_eq_ok reads (by omega)).mp single).2.2
      refine bind_eq_bind rfl fun _ left₄ closed => ?_
      have shorter₄ := congrArg List.length (expect_eq_ok.mp closed)
      simp only [List.length_append] at shorter₃ shorter₄
      exact bind_eq_bind (ih (by omega) (by omega) (by omega)) fun _ _ _ => rfl

theorem directory_congr {bound bound' depth : Nat} {input : Bytes} (short : input.length < bound)
    (short' : input.length < bound') :
    directory bound depth input = directory bound' depth input := by
  induction depth generalizing input with
  | zero => rfl
  | succ depth ih =>
    have reads : ReadsDirectory (directory bound depth) (min bound bound') depth :=
      fun shorter => directory_reads bound depth (by omega)
    exact entries_congr reads (fun left shorter => ih (by omega) (by omega)) (by omega) short short'

/-- No bound on the number of entries that exceeds the number of bytes is ever met. -/
theorem archiveWithin_congr {bound bound' : Nat} {input : Bytes} (short : input.length < bound)
    (short' : input.length < bound') :
    archiveWithin bound input = archiveWithin bound' input := by
  unfold archiveWithin
  generalize maxDepth + 1 = depth
  refine bind_eq_bind rfl fun _ left₁ opened => bind_eq_bind rfl fun isDirectory left₂ read => ?_
  have shorter₁ := congrArg List.length (expect_eq_ok.mp opened)
  have shorter₂ := congrArg List.length (nodeIsDirectory_eq_ok.mp read)
  rw [List.length_append] at shorter₁ shorter₂
  cases isDirectory with
  | false => simp only [Bool.false_eq_true, ↓reduceIte]
  | true =>
    simp only [↓reduceIte]
    exact bind_eq_bind (directory_congr (by omega) (by omega)) fun _ _ _ => rfl

/-- A read gives up on the rest of the nodes of directories with `depth` or more levels inside, from
inputs shorter than `bound`. -/
def RefusesDirectory (inner : ReaderM (List Member)) (bound depth : Nat) : Prop :=
  ∀ {input rest : Bytes} {members : List Member}, input.length < bound →
    depth ≤ levels members → DistinctNames members → EachMeasurable members →
    input = layoutEntries members ++ (closing ++ rest) →
    ∃ left, inner input = .error .tooDeep left

section

variable {inner : ReaderM (List Member)} {bound depth : Nat}

theorem member_too_deep (refuses : RefusesDirectory inner bound depth) {input rest : Bytes}
    {item : Member} {height : Nat} (short : input.length < bound) (readable : Readable height item)
    (deep : depth < item.height) (taken : input = layout item ++ rest) :
    ∃ left, member inner item.name input = .error .tooDeep left := by
  cases item with
  | file => exact absurd deep (Nat.not_lt_zero depth)
  | directory name children =>
    obtain ⟨_, distinct, measurable⟩ := (Member.readable_directory ..).mp readable
    have taken : input = Archive.directory ++ (layoutEntries children ++ (closing ++ rest)) := by
      simpa only [layout, List.append_assoc] using taken
    have shorter := congrArg List.length taken
    rw [List.length_append] at shorter
    have opened : nodeIsDirectory input = .ok true (layoutEntries children ++ (closing ++ rest)) :=
      nodeIsDirectory_eq_ok.mpr taken
    have inside : (layoutEntries children ++ (closing ++ rest)).length < bound := by omega
    obtain ⟨left, refused⟩ := refuses inside (Nat.le_of_lt_succ deep) distinct measurable rfl
    refine ⟨left, ?_⟩
    rw [member, bind_done opened]
    exact bind_failed refused

theorem entries_too_deep (reads : ReadsDirectory inner bound depth)
    (refuses : RefusesDirectory inner bound depth) {count height : Nat} {seen : List Name}
    {input rest : Bytes} {members : List Member} (enough : input.length < count)
    (short : input.length < bound) (follows : Follows height seen members)
    (deep : depth < levels members) (taken : input = layoutEntries members ++ (closing ++ rest)) :
    ∃ left, entries inner count seen input = .error .tooDeep left := by
  induction count generalizing seen input members with
  | zero => omega
  | succ count ih =>
    cases members with
    | nil => exact absurd deep (Nat.not_lt_zero depth)
    | cons item others =>
      obtain ⟨fresh, readable, follows⟩ := (follows_cons ..).mp follows
      simp only [layoutEntries, List.append_assoc] at taken
      have opened : entry.length = 48 := by decide
      have total := congrArg List.length taken
      simp only [List.length_append, opened] at total
      have single : (layout item ++ (closing ++ (layoutEntries others ++ (closing ++ rest)))).length
          < bound := by
        simp only [List.length_append]
        omega
      have left : (layoutEntries others ++ (closing ++ rest)).length < count := by
        simp only [List.length_append]
        omega
      have another : anotherEntry input = .ok true _ := anotherEntry_eq_ok.mpr taken
      rw [entries, bind_done another]
      simp only [↓reduceIte]
      have expected : expect node (node ++ (layout item ++ (closing ++ (layoutEntries others ++
          (closing ++ rest))))) = .ok () _ := expect_eq_ok.mpr rfl
      rw [bind_done (name_eq_ok.mpr ⟨fresh, rfl⟩), bind_done expected]
      by_cases low : item.height ≤ depth
      · have deeper : depth < levels others := by
          rcases Nat.lt_or_ge depth (levels others) with deeper | shallow
          · exact deeper
          · exact absurd deep (Nat.not_lt.mpr (Nat.max_le.mpr ⟨low, shallow⟩))
        obtain ⟨last, refused⟩ := ih left (by simp only [List.length_append] at single ⊢; omega)
          follows deeper rfl
        have closed : expect closing (closing ++ (layoutEntries others ++ (closing ++ rest))) =
            .ok () _ := expect_eq_ok.mpr rfl
        refine ⟨last, ?_⟩
        rw [bind_done ((member_eq_ok reads single).mpr ⟨rfl, ⟨low, readable.2⟩, rfl⟩),
          bind_done closed]
        exact bind_failed refused
      · obtain ⟨last, refused⟩ :=
          member_too_deep refuses single readable (Nat.lt_of_not_le low) rfl
        exact ⟨last, bind_failed refused⟩

end

theorem directory_refuses (bound depth : Nat) :
    RefusesDirectory (directory bound depth) bound depth := by
  induction depth with
  | zero => exact fun _ _ _ _ _ => ⟨_, rfl⟩
  | succ depth refuses =>
    intro input rest members short deep distinct measurable taken
    have follows : Follows (levels members) [] members :=
      ⟨fun _ _ => List.not_mem_nil, Nat.le_refl _, distinct, measurable⟩
    exact entries_too_deep (directory_reads bound depth) refuses short short follows deep taken

/-- The layout of a tree with directories that lie too deep is not read. -/
theorem archiveWithin_too_deep {bound : Nat} {members : List Member}
    (short : (layoutArchive members).length < bound) (distinct : DistinctNames members)
    (measurable : EachMeasurable members) (deep : maxDepth < levels members) :
    ∃ left, archiveWithin bound (layoutArchive members) = .error .tooDeep left := by
  have opened : expect opening (layoutArchive members) = .ok () _ := expect_eq_ok.mpr rfl
  have isDirectory : nodeIsDirectory (Archive.directory ++ (layoutEntries members ++ closing)) =
      .ok true (layoutEntries members ++ closing) := nodeIsDirectory_eq_ok.mpr rfl
  simp only [layoutArchive, List.length_append] at short
  have inside : (layoutEntries members ++ closing).length < bound := by
    rw [List.length_append]
    omega
  have ended : layoutEntries members ++ closing = layoutEntries members ++ (closing ++ []) := by
    rw [List.append_nil]
  obtain ⟨left, refused⟩ :=
    directory_refuses bound (maxDepth + 1) inside deep distinct measurable ended
  refine ⟨left, ?_⟩
  rw [archiveWithin, bind_done opened, bind_done isDirectory]
  simp only [↓reduceIte]
  exact bind_failed refused

end Reader

end Depot.Archive

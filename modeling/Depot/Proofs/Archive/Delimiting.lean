import Depot.Proofs.Archive.RoundTrip

set_option autoImplicit false

namespace Depot.Archive

open Member (EachMeasurable)

/-- A read that succeeds does not depend on what follows the bytes that it takes, and is short of
input where these are cut. -/
def Delimits {α : Type} (read : ReaderM α) : Prop :=
  ∀ (input rest : Bytes) (value : α), read input = .ok value rest →
    ∃ taken, input = taken ++ rest ∧ (∀ after, read (taken ++ after) = .ok value after) ∧
      ∀ front, front <+: taken → front ≠ taken →
        ∃ fault left, read front = .error fault left ∧ fault.kind = .unexpectedEnd

namespace Delimits

open ReaderM

variable {α β : Type}

theorem pure (value : α) : Delimits (Pure.pure value) := by
  intro input rest result read
  obtain ⟨rfl, rfl⟩ := pure_eq_ok.mp read
  refine ⟨[], rfl, fun after => rfl, fun front short proper => ?_⟩
  exact absurd (List.prefix_nil.mp short) proper

theorem throw (fault : ReadFault) : Delimits (MonadExcept.throw fault : ReaderM α) :=
  fun _ _ _ read => absurd read throw_ne_ok

theorem ite {condition : Prop} [Decidable condition] {first second : ReaderM α}
    (here : Delimits first) (there : Delimits second) :
    Delimits (if condition then first else second) := by
  by_cases holds : condition
  · rwa [if_pos holds]
  · rwa [if_neg holds]

/-- A cut in the bytes of two reads lies in those of the first, or else in those of the second. -/
theorem bind {first : ReaderM α} {next : α → ReaderM β} (here : Delimits first)
    (there : ∀ middle, Delimits (next middle)) : Delimits (first >>= next) := by
  intro input rest value read
  obtain ⟨middle, left, readFirst, readNext⟩ := bind_done_iff.mp read
  obtain ⟨taken, rfl, again, cut⟩ := here input left middle readFirst
  obtain ⟨more, rfl, againNext, cutNext⟩ := there middle left rest value readNext
  refine ⟨taken ++ more, (List.append_assoc ..).symm, fun after => ?_, fun front short proper => ?_⟩
  · rw [List.append_assoc, bind_done (again (more ++ after))]
    exact againNext after
  · by_cases inside : front.length < taken.length
    · have within : front <+: taken :=
        List.prefix_of_prefix_length_le short (List.prefix_append ..) (by omega)
      have apart : front ≠ taken := by
        rintro rfl
        omega
      obtain ⟨fault, left, failed, kind⟩ := cut front within apart
      exact ⟨fault, left, bind_failed failed, kind⟩
    · have beyond : taken <+: front :=
        List.prefix_of_prefix_length_le (List.prefix_append ..) short (by omega)
      obtain ⟨later, rfl⟩ := beyond
      have laterShort : later <+: more := (List.prefix_append_right_inj taken).mp short
      have laterProper : later ≠ more := fun same => proper (congrArg (taken ++ ·) same)
      obtain ⟨fault, left, failed, kind⟩ := cutNext later laterShort laterProper
      exact ⟨fault, left, (bind_done (again later)).trans failed, kind⟩

/-- Taking a number of bytes and failing if there are fewer. -/
theorem take {count : Nat} {next : Bytes → ReaderM β} {fault : ReadFault}
    (short : fault.kind = .unexpectedEnd) (there : ∀ taken, Delimits (next taken)) :
    Delimits (Reader.take count >>= fun taken =>
      if taken.length = count then next taken else MonadExcept.throw fault) := by
  intro input rest value read
  rw [bind_done (Reader.take_eq count input)] at read
  by_cases enough : (input.take count).length = count
  · rw [if_pos enough] at read
    obtain ⟨more, left, again, cut⟩ := there (input.take count) _ rest value read
    have whole : input = input.take count ++ more ++ rest := by
      rw [List.append_assoc, ← left, List.take_append_drop]
    -- With the bytes that were taken in front, the same number of bytes is taken.
    have resumed (after : Bytes) : (Reader.take count >>= fun taken =>
        if taken.length = count then next taken else MonadExcept.throw fault)
          (input.take count ++ after) = next (input.take count) after := by
      rw [bind_done (Reader.take_eq count _), List.take_left' enough, List.drop_left' enough,
        if_pos enough]
    refine ⟨input.take count ++ more, whole, fun after => ?_, fun front inside proper => ?_⟩
    · rw [List.append_assoc, resumed, again]
    · by_cases few : front.length < count
      · refine ⟨fault, front.drop count, ?_, short⟩
        have less : (front.take count).length ≠ count := by
          rw [List.length_take]
          omega
        rw [bind_done (Reader.take_eq count front), if_neg less]
        rfl
      · have beyond : input.take count <+: front :=
          List.prefix_of_prefix_length_le (List.prefix_append ..) inside (by omega)
        obtain ⟨later, rfl⟩ := beyond
        have laterShort : later <+: more := (List.prefix_append_right_inj _).mp inside
        have laterProper : later ≠ more := fun same => proper (congrArg (_ ++ ·) same)
        rw [resumed]
        exact cut later laterShort laterProper
  · rw [if_neg enough] at read
    exact absurd read throw_ne_ok

end Delimits

namespace Reader

open ReaderM

theorem exactly_delimits (count : Nat) : Delimits (exactly count) :=
  Delimits.take rfl Delimits.pure

theorem number_delimits : Delimits number :=
  (exactly_delimits 8).bind fun _ => .pure _

theorem padding_delimits (length : Nat) : Delimits (padding length) :=
  (exactly_delimits _).bind fun _ => .ite (.pure ()) (.throw _)

theorem expectWords_delimits (list : List Bytes) : Delimits (expectWords list) := by
  induction list with
  | nil => exact .pure ()
  | cons word rest ih => exact (exactly_delimits _).bind fun _ => .ite ih (.throw _)

theorem expect_delimits (token : Bytes) : Delimits (expect token) :=
  expectWords_delimits _

theorem either_delimits (first second : Bytes) : Delimits (either first second) := by
  refine (exactly_delimits 8).bind fun word => .ite ?_ (.ite ?_ (.throw _))
  · exact (expect_delimits _).bind fun _ => .pure false
  · exact (expect_delimits _).bind fun _ => .pure true

theorem name_delimits (seen : List Name) : Delimits (name seen) := by
  refine number_delimits.bind fun length => .ite ((Delimits.throw _).bind fun _ => ?_) ?_
  all_goals
    refine (exactly_delimits length).bind fun bytes => (padding_delimits length).bind fun _ => ?_
    cases Name.ofBytes bytes with
    | error error => exact .throw _
    | ok name => exact .ite (.throw _) (.pure name)

theorem content_delimits : Delimits content := by
  have checked (length : Nat) (content : Bytes) :
      Delimits (do padding length; expect closing; return content) :=
    (padding_delimits length).bind fun _ => (expect_delimits closing).bind fun _ => .pure content
  refine number_delimits.bind fun length => ?_
  simp only [ne_eq, ite_not]
  exact @Delimits.take Bytes length _ .contentTooShort rfl (checked length)

section

variable {inner : ReaderM (List Member)} (inside : Delimits inner)

include inside

theorem member_delimits (found : Name) : Delimits (member inner found) :=
  (either_delimits _ _).bind fun _ =>
    .ite (inside.bind fun _ => .pure _) (content_delimits.bind fun _ => .pure _)

/-- By induction on the number of entries that the reader is prepared for. -/
theorem entries_delimits (count : Nat) (seen : List Name) :
    Delimits (entries inner count seen) := by
  induction count generalizing seen with
  | zero => exact .throw _
  | succ count ih =>
    refine (either_delimits _ _).bind fun another => .ite ?_ (.pure [])
    refine (name_delimits seen).bind fun found => (expect_delimits node).bind fun _ => ?_
    refine (member_delimits inside found).bind fun item =>
      (expect_delimits closing).bind fun _ => ?_
    exact (ih (found :: seen)).bind fun _ => .pure _

end

theorem directory_delimits (bound levels : Nat) : Delimits (directory bound levels) := by
  induction levels with
  | zero => exact .throw _
  | succ levels ih => exact entries_delimits ih bound []

/-- Takes an archive and leaves what follows it. -/
def leading (bound : Nat) : ReaderM (List Member) := do
  expect opening
  if ← nodeIsDirectory then directory bound (maxDepth + 1) else throw .rootIsFile

theorem leading_delimits (bound : Nat) : Delimits (leading bound) :=
  (expect_delimits opening).bind fun _ => (either_delimits _ _).bind fun _ =>
    .ite (directory_delimits bound _) (.throw _)

/-- Hands over the members of an archive if nothing is left. -/
def finished (members : List Member) : ReaderM (List Member) := do
  if (← get).isEmpty then return members else throw .trailingData

theorem archiveWithin_eq (bound : Nat) : archiveWithin bound = leading bound >>= finished := by
  simp only [archiveWithin, leading, bind_assoc]
  congr
  funext _
  congr
  funext isDirectory
  cases isDirectory <;> rfl

end Reader

open Reader (leading finished)

/-- A byte string is read as an archive that leaves nothing, with enough room for entries. -/
theorem decodePlain_leading {input : Bytes} {bound : Nat} (enough : input.length < bound) :
    decodePlain input =
      match leading bound input with
      | .ok members [] => .ok members
      | .ok _ (_ :: _) => .error .trailingData
      | .error fault _ => .error fault := by
  have unfolded : Reader.archive input = Reader.archiveWithin bound input :=
    Reader.archiveWithin_congr (Nat.lt_succ_self _) enough
  rw [decodePlain, ReaderM.consume, unfolded, Reader.archiveWithin_eq]
  cases read : leading bound input with
  | error fault left => rw [bind_failed read]
  | ok members left =>
    rw [bind_done read]
    cases left <;> rfl

/-- A byte string that is an archive is read as one only as a whole. Any proper beginning of it,
wherever it is cut, is short of input; with anything behind it, there is trailing data. So no
archive is a proper beginning of another one. -/
theorem decodePlain_self_delimiting {input : Bytes} {members : List Member}
    (read : decodePlain input = .ok members) :
    (∀ front, front <+: input → front ≠ input →
      ∃ fault, decodePlain front = .error fault ∧ fault.kind = .unexpectedEnd) ∧
    (∀ after, after ≠ [] →
      ∃ fault, decodePlain (input ++ after) = .error fault ∧ fault.kind = .invalidData) ∧
    ∀ other members', decodePlain other = .ok members' → input <+: other → other = input := by
  have whole (bound : Nat) (enough : input.length < bound) :
      leading bound input = .ok members [] := by
    rw [decodePlain_leading enough] at read
    split at read
    · next taken => rw [taken, Except.ok.inj read]
    · cases read
    · cases read
  have followed (after : Bytes) (more : after ≠ []) :
      decodePlain (input ++ after) = .error .trailingData := by
    have room : (input ++ after).length < (input ++ after).length + 1 := Nat.lt_succ_self _
    have enough : input.length < (input ++ after).length + 1 := by
      rw [List.length_append]
      omega
    obtain ⟨taken, same, again, _⟩ := Reader.leading_delimits _ _ _ _ (whole _ enough)
    rw [List.append_nil] at same
    subst same
    obtain ⟨byte, rest, rfl⟩ := List.exists_cons_of_ne_nil more
    rw [decodePlain_leading room, again]
  refine ⟨fun front short proper => ?_, fun after more => ⟨_, followed after more, rfl⟩, ?_⟩
  · have enough : front.length < input.length + 1 := Nat.lt_succ_of_le short.length_le
    obtain ⟨taken, same, _, cut⟩ :=
      Reader.leading_delimits _ _ _ _ (whole (input.length + 1) (Nat.lt_succ_self _))
    rw [List.append_nil] at same
    subst same
    obtain ⟨fault, left, failed, kind⟩ := cut front short proper
    exact ⟨fault, by rw [decodePlain_leading enough, failed], kind⟩
  · rintro other members' readOther ⟨after, rfl⟩
    by_cases empty : after = []
    · rw [empty, List.append_nil]
    · rw [followed after empty] at readOther
      cases readOther

/-- The archive is cut in the content of a file, and is followed by a byte. -/
theorem decodePlain_self_delimiting_nested :
    decodePlain (layoutArchive nested) = .ok nested ∧
      (∃ fault, decodePlain ((layoutArchive nested).take 370) = .error fault ∧
        fault.kind = .unexpectedEnd) ∧
      ∃ fault, decodePlain (layoutArchive nested ++ [0]) = .error fault ∧
        fault.kind = .invalidData := by
  have measurable : EachMeasurable nested := by
    simp [nested, EachMeasurable, Member.Measurable, Bytes.limit]
  have read : decodePlain (layoutArchive nested) = .ok nested :=
    decodePlain_eq_ok.mpr ⟨⟨by decide, by decide, measurable⟩, rfl⟩
  obtain ⟨cut, trailing, _⟩ := decodePlain_self_delimiting read
  have proper : (layoutArchive nested).take 370 ≠ layoutArchive nested := by decide +kernel
  exact ⟨read, cut _ (List.take_prefix 370 _) proper, trailing [0] (List.cons_ne_nil 0 [])⟩

end Depot.Archive

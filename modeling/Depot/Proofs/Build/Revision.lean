import Depot.Proofs.Build.Precision
import Depot.Proofs.Build.Rewriting
import Depot.Proofs.Build.Walk

set_option autoImplicit false

namespace Depot

open Slot (Layered Precise uses usesEach packs packsEach)
open Entry (Sealed hashed hashedEach listing listDigest toMember toMembers)

namespace Entry

theorem fingerprint_ofDirectory {hash : Hash} {name : Name} {left right : List Entry}
    (same : listDigest hash left = listDigest hash right) :
    fingerprint (.ofDirectory hash name left) = fingerprint (.ofDirectory hash name right) := by
  rw [ofDirectory, ofDirectory, same]
  rfl

theorem eachMeasurable_toMembers {entries : List Entry} :
    Member.EachMeasurable (toMembers entries) ↔ ∀ entry ∈ entries, entry.toMember.Measurable := by
  induction entries with
  | nil => simp [toMembers, Member.EachMeasurable]
  | cons entry rest ih => rw [toMembers, Member.EachMeasurable, ih, List.forall_mem_cons]

/-- The lengths of all files in an archive are those of byte strings that were hashed. -/
theorem measurable_of_short {strings : List Bytes}
    (short : ∀ string ∈ strings, string.length < Bytes.limit 8) (entry : Entry) :
    hashed entry ⊆ strings → entry.toMember.Measurable := by
  induction entry using induct with
  | file name content stamp digest => exact fun subset => short content (subset List.mem_cons_self)
  | directory name children digest ih =>
    intro subset
    refine eachMeasurable_toMembers.mpr fun child held => ?_
    exact ih child held (List.Subset.trans (hashed_subset held) (List.cons_subset.mp subset).2)
  | archive name members bytes digest _ =>
    exact fun subset => short bytes (subset List.mem_cons_self)

theorem eachMeasurable_of_short {strings : List Bytes}
    (short : ∀ string ∈ strings, string.length < Bytes.limit 8) {entries : List Entry}
    (hashes : hashedEach entries ⊆ strings) : Member.EachMeasurable (toMembers entries) :=
  eachMeasurable_toMembers.mpr fun entry held =>
    measurable_of_short short entry (List.Subset.trans (hashed_subset held) hashes)

end Entry

namespace Assembler

/-- What the walk makes of the entries for some slots. Those of slots without the file stay. A place
of the file gets its new content. The containers with such places are walked, and each archive among
them is made of its new members, given its old ones with their bytes. -/
inductive Revises (assembler : Assembler) (source : Source) (old new : Bytes) :
    List Slot → List Entry → List Entry → Effort → Prop where
  | nil : Revises assembler source old new [] [] [] .none
  | kept {slot : Slot} {entry : Entry} {rest : List Slot} {olds news : List Entry} {effort : Effort}
    (unused : uses source slot = 0)
      (later : Revises assembler source old new rest olds news effort) :
    Revises assembler source old new (slot :: rest) (entry :: olds) (entry :: news) (.none + effort)
  | file {name : Name} {stamp stamp' : Stamp} {rest : List Slot} {olds news : List Entry}
    {effort : Effort} (later : Revises assembler source old new rest olds news effort) :
    Revises assembler source old new (.file name source :: rest)
      (.ofFile assembler.hash name old stamp :: olds)
      (.ofFile assembler.hash name new stamp' :: news) (⟨1, 0, 0⟩ + effort)
  | directory {name : Name} {touches : List Touch} {slots rest : List Slot}
    {members members' olds news : List Entry} {work effort : Effort}
    (used : usesEach source slots ≠ 0)
    (inner : Revises assembler source old new slots members members' work)
    (later : Revises assembler source old new rest olds news effort) :
    Revises assembler source old new (.container .directory name touches (.ok slots) :: rest)
      (.ofDirectory assembler.hash name members :: olds)
      (.ofDirectory assembler.hash name members' :: news) (work + effort)
  | archive {name : Name} {touches : List Touch} {slots rest : List Slot} {path : Path}
    {members members' olds news : List Entry} {bytes : Bytes} {result : Entry}
    {work wrapping effort : Effort} (used : usesEach source slots ≠ 0)
    (inner : Revises assembler source old new slots members members' work)
    (written : Archive.encodeWith assembler.codec assembler.compression (toMembers members) =
      .ok bytes)
    (wrapped : assembler.archive path name (some (members, bytes)) members' =
      .ok (result, wrapping))
    (later : Revises assembler source old new rest olds news effort) :
    Revises assembler source old new (.container .archive name touches (.ok slots) :: rest)
      (.ofArchive assembler.hash name members bytes :: olds) (result :: news)
      (work + wrapping + effort)

variable {assembler : Assembler} {source : Source} {old new : Bytes} {slots : List Slot}
  {olds news : List Entry} {effort : Effort}

/-- The bytes of an archive are kept if the digest of its members is the one from before. -/
theorem archive_same {path : Path} {name : Name} {members members' : List Entry} {bytes : Bytes}
    {result : Entry} (same : listDigest assembler.hash members' = listDigest assembler.hash members)
    (made : assembler.archive path name (some (members, bytes)) members' = .ok (result, effort)) :
    result = .ofArchive assembler.hash name members' bytes ∧ effort = .none := by
  simp only [archive, Option.bind_some, same, if_true, Except.ok.injEq, Prod.mk.injEq] at made
  exact ⟨made.1.symm, made.2.symm⟩

/-- It is encoded again if it is another one. -/
theorem archive_other {path : Path} {name : Name} {members members' : List Entry} {bytes : Bytes}
    {result : Entry}
    (other : listDigest assembler.hash members' ≠ listDigest assembler.hash members)
    (made : assembler.archive path name (some (members, bytes)) members' = .ok (result, effort)) :
    effort = ⟨0, 0, 1⟩ ∧ ∃ bytes', result = .ofArchive assembler.hash name members' bytes' ∧
      Archive.encodeWith assembler.codec assembler.compression (toMembers members') =
        .ok bytes' := by
  simp only [archive, Option.bind_some, other, if_false] at made
  split at made
  · next bytes' encoded =>
    cases made
    exact ⟨rfl, bytes', rfl, encoded⟩
  · cases made

/-- What the walk makes of the entry for one slot, whatever slots come after it. -/
def Heads (assembler : Assembler) (source : Source) (old new : Bytes) (slot : Slot)
    (before after : Entry) (work : Effort) : Prop :=
  ∀ {rest : List Slot} {olds news : List Entry} {effort : Effort},
    Revises assembler source old new rest olds news effort →
    Revises assembler source old new (slot :: rest) (before :: olds) (after :: news) (work + effort)

/-- What the walk makes of a slot that uses the file and was built before. -/
def Revisable (assembler : Assembler) (before : Workspace) (source : Source) (old new : Bytes)
    (slot : Slot) : Prop :=
  ∀ {path : Path} {was now : Entry} {work : Effort}, uses source slot ≠ 0 →
    (assembler.within before).complete? slot = some was →
    assembler.entry (.changed source) path (some was) slot = .ok (now, work) →
    Heads assembler source old new slot was now work

variable {before : Workspace}

/-- The walk through a container, by induction on its slots. -/
theorem entries_revise {members : List Entry} {path : Path}
    (revisable : ∀ slot ∈ slots, Revisable assembler before source old new slot)
    (layered : ∀ slot ∈ slots, Layered assembler.workspace slot)
    (precise : ∀ slot ∈ slots, Precise assembler.workspace source slot)
    (each : List.Forall₂ (fun slot was => (assembler.within before).complete? slot = some was ∧
      former (some members) slot = some was) slots olds) :
    ∀ {news : List Entry} {effort : Effort},
      assembler.entries (.changed source) path (some members) slots = .ok (news, effort) →
      Revises assembler source old new slots olds news effort := by
  induction each with
  | nil =>
    intro news effort built
    cases built
    exact .nil
  | @cons slot was rest olds related _ ih =>
    intro news effort built
    obtain ⟨complete, found⟩ := related
    obtain ⟨first, work, others, more, contributes, walked, rfl, rfl⟩ := entries_cons_eq_ok.mp built
    obtain ⟨revises, revisable⟩ := List.forall_mem_cons.mp revisable
    obtain ⟨layeredHere, layered⟩ := List.forall_mem_cons.mp layered
    obtain ⟨preciseHere, precise⟩ := List.forall_mem_cons.mp precise
    have later := ih revisable layered precise walked
    have reaches : assembler.reached (.changed source) slot.touches = _ :=
      Slot.reaches_iff_used layeredHere preciseHere
    cases contributes with
    | built reached made =>
      have used := of_decide_eq_true (Except.ok.inj (reaches.symm.trans reached))
      rw [found] at made
      exact revises used complete made later
    | kept unreached held =>
      have unused := of_decide_eq_false (Except.ok.inj (reaches.symm.trans unreached))
      obtain rfl := Option.some.inj (found.symm.trans held)
      exact .kept (of_not_not unused) later
    | supplied _ _ absent _ => cases found.symm.trans absent
    | skipped _ none => cases none

/-- The entries of a build of everything are found under the names of their slots. -/
theorem formers_of_complete (distinct : (slots.map Slot.name).Nodup)
    (each : List.Forall₂ (fun slot was => assembler.complete? slot = some was) slots olds) :
    List.Forall₂ (fun slot was => assembler.complete? slot = some was ∧
      former (some olds) slot = some was) slots olds := by
  have found : ∀ slot ∈ slots, ∃ was, assembler.complete? slot = some was ∧
      former (some olds) slot = some was := by
    intro slot present
    obtain ⟨was, _, found, complete⟩ :=
      named?_of_forall₂ each (fun _ _ complete => name_complete? complete) distinct present
    exact ⟨was, complete, found⟩
  refine ((List.forall₂_and_left _ _).mpr ⟨found, each⟩).imp ?_
  rintro slot was ⟨⟨was', complete', found⟩, complete⟩
  obtain rfl := Option.some.inj (complete'.symm.trans complete)
  exact ⟨complete, found⟩

/-- The walk through any slot, by induction on the slot. -/
theorem slot_revisable (readOld : before.read source = .ok old)
    (readNew : assembler.workspace.read source = .ok new) (slot : Slot) :
    Layered assembler.workspace slot → Precise assembler.workspace source slot →
      Revisable assembler before source old new slot := by
  induction slot using Slot.induct with
  | failed kind name touches fault => exact fun _ _ _ _ _ _ _ complete => by cases complete
  | file name other =>
    intro _ _ path was now work used complete made rest olds news effort later
    rw [uses] at used
    obtain rfl : other = source := by_contra fun apart => used (if_neg apart)
    obtain ⟨content, read, rfl⟩ := complete?_source.mp complete
    obtain rfl := Except.ok.inj (read.symm.trans readOld)
    rcases file_eq_ok.mp made with ⟨current, _⟩ | ⟨_, rfl, content', read', rfl⟩
    · simp [current?] at current
    · obtain rfl := Except.ok.inj (read'.symm.trans readNew)
      exact .file later
  | container kind name touches slots ih =>
    intro layered precise path was now work used complete made rest olds news effort later
    obtain ⟨members, each, enclosed⟩ := complete?_container.mp complete
    obtain ⟨members', walked, wrapping, built, wrapped, rfl⟩ := container_eq_ok.mp made
    rw [remembered_changed, inside?_enclose? enclosed] at built
    have inner := entries_revise
      (fun slot present => ih slot present (layered.inner slot present)
        (precise.inner slot present))
      layered.inner precise.inner (formers_of_complete layered.distinct each) built
    cases kind with
    | directory =>
      cases enclosed
      cases wrapped
      exact .directory used inner later
    | archive =>
      simp only [enclose?] at enclosed
      split at enclosed
      · next bytes written =>
        cases enclosed
        exact .archive used inner written wrapped later
      · cases enclosed

/-- The walk through an output that was built in full before the file got its new content. -/
theorem output_revises (alike : Workspace.Alike before assembler.workspace)
    (trees : assembler.workspace.Trees) (readOld : before.read source = .ok old)
    (readNew : assembler.workspace.read source = .ok new) {plan : Plan}
    (was : (assembler.within before).full? plan = some olds)
    (built : assembler.output (.changed source) plan (some olds) = .ok (news, effort)) :
    ∃ slots, assembler.resolver.slots plan = .ok slots ∧
      Revises assembler source old new slots olds news effort := by
  obtain ⟨slots, expanded, distinct, layered, each, buildable⟩ := slots_of_full? alike trees was
  obtain ⟨slots', expanded', walked⟩ := output_eq_ok.mp built
  obtain rfl := Except.ok.inj (expanded.symm.trans expanded')
  have precise := slots_precise trees readNew expanded buildable
  have revisable : ∀ slot ∈ slots, Revisable assembler before source old new slot :=
    fun slot present =>
    slot_revisable readOld readNew slot (layered slot present) (precise slot present)
  exact ⟨slots, expanded,
    entries_revise revisable layered precise (formers_of_complete distinct each) walked⟩

theorem Revises.names (revises : Revises assembler source old new slots olds news effort) :
    news.map Entry.name = olds.map Entry.name := by
  induction revises with
  | nil => rfl
  | kept _ _ ih => simp only [List.map_cons, ih]
  | file _ ih => simp only [List.map_cons, ih, Entry.ofFile, Entry.name]
  | directory _ _ _ _ ih => simp only [List.map_cons, ih, Entry.ofDirectory, Entry.name]
  | archive _ _ _ wrapped _ _ ih =>
    obtain ⟨bytes', rfl⟩ := archive_eq_ok wrapped
    simp only [List.map_cons, ih, Entry.ofArchive, Entry.name]

theorem Revises.closed (revises : Revises assembler source old new slots olds news effort)
    (closed : ∀ entry ∈ olds, Sealed assembler.hash entry) :
    ∀ entry ∈ news, Sealed assembler.hash entry := by
  induction revises with
  | nil => exact closed
  | kept _ _ ih =>
    obtain ⟨first, closed⟩ := List.forall_mem_cons.mp closed
    exact List.forall_mem_cons.mpr ⟨first, ih closed⟩
  | file _ ih =>
    obtain ⟨_, closed⟩ := List.forall_mem_cons.mp closed
    exact List.forall_mem_cons.mpr ⟨.file .., ih closed⟩
  | directory _ inner _ ihInner ih =>
    obtain ⟨first, closed⟩ := List.forall_mem_cons.mp closed
    cases first with
    | directory distinct within =>
      exact List.forall_mem_cons.mpr
        ⟨.directory (inner.names ▸ distinct) (ihInner within), ih closed⟩
  | archive _ inner _ wrapped _ ihInner ih =>
    obtain ⟨first, closed⟩ := List.forall_mem_cons.mp closed
    obtain ⟨bytes', rfl⟩ := archive_eq_ok wrapped
    cases first with
    | archive distinct within =>
      exact List.forall_mem_cons.mpr ⟨.archive (inner.names ▸ distinct) (ihInner within), ih closed⟩

/-- Nothing changes where the file is not used. -/
theorem Revises.unused (revises : Revises assembler source old new slots olds news effort)
    (unused : usesEach source slots = 0) : news = olds := by
  induction revises with
  | nil => rfl
  | kept _ _ ih =>
    rw [usesEach, Nat.add_eq_zero_iff] at unused
    rw [ih unused.2]
  | file _ _ => simp [usesEach, uses] at unused
  | directory used _ _ _ _ =>
    rw [usesEach, uses, Nat.add_eq_zero_iff] at unused
    exact absurd unused.1 used
  | archive used _ _ _ _ _ _ =>
    rw [usesEach, uses, Nat.add_eq_zero_iff] at unused
    exact absurd unused.1 used

/-- Archives add nothing to what is read. -/
theorem archive_reads {path : Path} {name : Name} {before? : Option (List Entry × Bytes)}
    {members : List Entry} {result : Entry}
    (made : assembler.archive path name before? members = .ok (result, effort)) :
    effort.read = 0 ∧ effort.reused = 0 := by
  simp only [archive] at made
  split at made
  · cases made
    exact ⟨rfl, rfl⟩
  · split at made
    · cases made
      exact ⟨rfl, rfl⟩
    · cases made

/-- The file is read once for each of its places, and no other file is, by induction on the walk. -/
theorem Revises.reads (revises : Revises assembler source old new slots olds news effort) :
    effort.read = usesEach source slots ∧ effort.reused = 0 := by
  induction revises with
  | nil => exact ⟨rfl, rfl⟩
  | kept unused _ ih => simp [Effort.add_eq, Effort.none, usesEach, unused, ih]
  | file _ ih => simp [Effort.add_eq, usesEach, uses, ih]
  | directory _ _ _ ihInner ih => simp [Effort.add_eq, usesEach, uses, ihInner, ih]
  | archive _ _ _ wrapped _ ihInner ih =>
    obtain ⟨read, reused⟩ := archive_reads wrapped
    simp [Effort.add_eq, usesEach, uses, ihInner, ih, read, reused]

/-- If the content is the one from before, then all digests are, and no archive is encoded. -/
theorem Revises.same (revises : Revises assembler source old new slots olds news effort)
    (same : old = new) : listing news = listing olds ∧ effort.encoded = 0 := by
  subst same
  induction revises with
  | nil => exact ⟨rfl, rfl⟩
  | kept _ _ ih =>
    obtain ⟨listed, encoded⟩ := ih
    exact ⟨congrArg (_ ++ ·) listed, by simp [Effort.add_eq, Effort.none, encoded]⟩
  | file _ ih =>
    obtain ⟨listed, encoded⟩ := ih
    exact ⟨congrArg (_ ++ ·) listed, by simp [Effort.add_eq, encoded]⟩
  | directory _ _ _ ihInner ih =>
    obtain ⟨inside, nothing⟩ := ihInner
    obtain ⟨listed, encoded⟩ := ih
    have digests := congrArg assembler.hash inside
    refine ⟨?_, by simp [Effort.add_eq, nothing, encoded]⟩
    exact congrArg₂ (· ++ ·) (Entry.fingerprint_ofDirectory digests) listed
  | archive _ _ _ wrapped _ ihInner ih =>
    obtain ⟨inside, nothing⟩ := ihInner
    obtain ⟨listed, encoded⟩ := ih
    obtain ⟨rfl, rfl⟩ := archive_same (congrArg assembler.hash inside) wrapped
    exact ⟨congrArg (_ ++ ·) listed, by simp [Effort.add_eq, Effort.none, nothing, encoded]⟩

section Different

variable (lengths : ∀ content, (assembler.hash content).bytes.length = 32)
  (undoes : ∀ level, assembler.compression = .zstd level →
    ∀ content, assembler.codec.decompress (assembler.codec.compress level content) = .ok content)
  {strings : List Bytes} (separates : assembler.hash.Separates strings)
  (short : ∀ string ∈ strings, string.length < Bytes.limit 8)

include lengths undoes separates short

/-- If the content is another one, and no byte strings collide, then every archive with a place of
the file is encoded again, and what the slots give in an archive is different if they use the file.
By induction on the walk: bytes differ where members do, since an archive tells its members. -/
theorem Revises.different
    (revises : Revises assembler source old new slots olds news effort) (different : old ≠ new)
    (closed : ∀ entry ∈ olds, Sealed assembler.hash entry) (oldHashed : hashedEach olds ⊆ strings)
    (newHashed : hashedEach news ⊆ strings) :
    effort.encoded = packsEach source slots ∧
      (usesEach source slots ≠ 0 → toMembers news ≠ toMembers olds) := by
  induction revises with
  | nil => exact ⟨rfl, fun used => absurd rfl used⟩
  | kept unused _ ih =>
    simp only [hashedEach, List.append_subset] at oldHashed newHashed
    obtain ⟨_, closed⟩ := List.forall_mem_cons.mp closed
    obtain ⟨encoded, changed⟩ := ih closed oldHashed.2 newHashed.2
    refine ⟨by simp [Effort.add_eq, Effort.none, packsEach, Slot.packs_eq_zero unused, encoded],
      fun used same => ?_⟩
    rw [usesEach, unused, Nat.zero_add] at used
    rw [toMembers, toMembers] at same
    exact changed used (List.cons.inj same).2
  | file _ ih =>
    simp only [hashedEach, List.append_subset] at oldHashed newHashed
    obtain ⟨_, closed⟩ := List.forall_mem_cons.mp closed
    obtain ⟨encoded, _⟩ := ih closed oldHashed.2 newHashed.2
    refine ⟨by simp [Effort.add_eq, packsEach, packs, encoded], fun _ same => ?_⟩
    rw [toMembers, toMembers, Entry.ofFile, Entry.ofFile, toMember, toMember] at same
    exact different (Member.file.inj (List.cons.inj same).1).2.symm
  | directory used _ _ ihInner ih =>
    simp only [hashedEach, List.append_subset, Entry.ofDirectory, hashed, List.cons_subset]
      at oldHashed newHashed
    obtain ⟨first, closed⟩ := List.forall_mem_cons.mp closed
    obtain ⟨encoded, _⟩ := ih closed oldHashed.2 newHashed.2
    cases first with
    | directory _ within =>
      obtain ⟨inside, changed⟩ := ihInner within oldHashed.1.2 newHashed.1.2
      refine ⟨by simp [Effort.add_eq, packsEach, packs, inside, encoded], fun _ same => ?_⟩
      rw [toMembers, toMembers, Entry.ofDirectory, Entry.ofDirectory, toMember, toMember] at same
      exact changed used (Member.directory.inj (List.cons.inj same).1).2
  | archive used inner written wrapped _ ihInner ih =>
    obtain ⟨first, closed⟩ := List.forall_mem_cons.mp closed
    cases first with
    | archive _ within =>
      obtain ⟨_, rebuilt⟩ := archive_eq_ok wrapped
      subst rebuilt
      simp only [hashedEach, List.append_subset, Entry.ofArchive, hashed, List.cons_subset]
        at oldHashed newHashed
      obtain ⟨⟨_, oldListed, oldInside⟩, oldLater⟩ := oldHashed
      obtain ⟨⟨_, newListed, newInside⟩, newLater⟩ := newHashed
      obtain ⟨encoded, _⟩ := ih closed oldLater newLater
      obtain ⟨inside, changed⟩ := ihInner within oldInside newInside
      -- The members have another digest, because the same digest would tell the same members.
      have digests : listDigest assembler.hash _ ≠ listDigest assembler.hash _ := fun same =>
        changed used (Entry.toMembers_of_listDigest lengths separates (inner.closed within) within
          (List.cons_subset.mpr ⟨newListed, newInside⟩)
            (List.cons_subset.mpr ⟨oldListed, oldInside⟩)
          same)
      obtain ⟨rfl, bytes', rebuilt, rewritten⟩ := archive_other digests wrapped
      cases rebuilt
      refine ⟨by simp [Effort.add_eq, packsEach, packs, inside, encoded, used], fun _ same => ?_⟩
      rw [toMembers, toMembers, Entry.ofArchive, Entry.ofArchive, toMember, toMember] at same
      obtain rfl := (Member.file.inj (List.cons.inj same).1).2
      exact changed used (Archive.encodeWith_inj undoes rewritten written
        (Entry.eachMeasurable_of_short short newInside)
          (Entry.eachMeasurable_of_short short oldInside))

/-- The digest of all entries tells whether the slots use the file. -/
theorem Revises.listDigest_eq_iff
    (revises : Revises assembler source old new slots olds news effort) (different : old ≠ new)
    (closed : ∀ entry ∈ olds, Sealed assembler.hash entry)
    (oldHashed : listing olds :: hashedEach olds ⊆ strings)
    (newHashed : listing news :: hashedEach news ⊆ strings) :
    listDigest assembler.hash olds = listDigest assembler.hash news ↔
      usesEach source slots = 0 := by
  obtain ⟨_, changed⟩ := revises.different lengths undoes separates short different closed
    (List.cons_subset.mp oldHashed).2 (List.cons_subset.mp newHashed).2
  constructor
  · intro same
    by_contra used
    exact changed used
      (Entry.toMembers_of_listDigest lengths separates (revises.closed closed) closed
      newHashed oldHashed same.symm)
  · intro unused
    rw [revises.unused unused]

end Different

end Assembler

end Depot

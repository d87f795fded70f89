import Depot.Entry

set_option autoImplicit false

namespace Depot

/-- No two of the given byte strings have the same digest. -/
def Hash.Separates (hash : Hash) (strings : List Bytes) : Prop :=
  ∀ left ∈ strings, ∀ right ∈ strings, hash left = hash right → left = right

instance (hash : Hash) (strings : List Bytes) : Decidable (hash.Separates strings) :=
  inferInstanceAs
    (Decidable (∀ left ∈ strings, ∀ right ∈ strings, hash left = hash right → left = right))

namespace Entry

mutual

/-- Induction on an entry, with what holds of all entries inside. -/
theorem induct {motive : Entry → Prop}
    (file : ∀ name content stamp digest, motive (.file name content stamp digest))
    (directory : ∀ name children digest, (∀ child ∈ children, motive child) →
      motive (.directory name children digest))
    (archive : ∀ name members bytes digest, (∀ member ∈ members, motive member) →
      motive (.archive name members bytes digest)) : (entry : Entry) → motive entry
  | .file name content stamp digest => file name content stamp digest
  | .directory name children digest =>
    directory name children digest (inductEach file directory archive children)
  | .archive name members bytes digest =>
    archive name members bytes digest (inductEach file directory archive members)

theorem inductEach {motive : Entry → Prop}
    (file : ∀ name content stamp digest, motive (.file name content stamp digest))
    (directory : ∀ name children digest, (∀ child ∈ children, motive child) →
      motive (.directory name children digest))
    (archive : ∀ name members bytes digest, (∀ member ∈ members, motive member) →
      motive (.archive name members bytes digest)) :
    (entries : List Entry) → ∀ entry ∈ entries, motive entry
  | [], _, present => nomatch present
  | first :: rest, entry, present => by
    have here := induct file directory archive first
    rcases List.mem_cons.mp present with same | later
    · exact same ▸ here
    · exact inductEach file directory archive rest entry later

end

/-- An entry that was made with the digest of what it is written out as, and all in it too. -/
inductive Digested (hash : Hash) : Entry → Prop where
  | file (name : Name) (content : Bytes) (stamp : Stamp) :
    Digested hash (.ofFile hash name content stamp)
  | directory {name : Name} {children : List Entry}
    (inner : ∀ child ∈ children, Digested hash child) :
    Digested hash (.ofDirectory hash name children)
  | archive (name : Name) (members : List Entry) (bytes : Bytes) :
    Digested hash (.ofArchive hash name members bytes)

def listing (entries : List Entry) : Bytes :=
  entries.flatMap fingerprint

mutual

def digested : Entry → List Bytes
  | file _ content _ _ => [content]
  | directory _ children _ => listing children :: digestedEach children
  | archive _ _ bytes _ => [bytes]

/-- The byte strings that the digests of the entries of a list rest on. -/
def digestedEach : List Entry → List Bytes
  | [] => []
  | entry :: rest => digested entry ++ digestedEach rest

end

mutual

/-- An entry without its stamps, and without the entries that its archives were made from. -/
def rendered : Entry → Entry
  | file name content _ digest => .file name content 0 digest
  | directory name children digest => .directory name (renderedEach children) digest
  | archive name _ bytes digest => .archive name [] bytes digest

/-- The entries of a list without stamps, and without the entries that archives were made from. -/
def renderedEach : List Entry → List Entry
  | [] => []
  | entry :: rest => rendered entry :: renderedEach rest

end

mutual

/-- Two entries agree in name and kind, and in the content of a file, in the bytes of an archive, or
in what a directory holds. -/
def Alike : Entry → Entry → Prop
  | .file name content _ _, .file name' content' _ _ => name = name' ∧ content = content'
  | .directory name children _, .directory name' children' _ =>
    name = name' ∧ AlikeEach children children'
  | .archive name _ bytes _, .archive name' _ bytes' _ => name = name' ∧ bytes = bytes'
  | .file .., .directory .. | .file .., .archive .. => False
  | .directory .., .file .. | .directory .., .archive .. => False
  | .archive .., .file .. | .archive .., .directory .. => False

def AlikeEach : List Entry → List Entry → Prop
  | [], [] => True
  | entry :: rest, other :: others => Alike entry other ∧ AlikeEach rest others
  | [], _ :: _ | _ :: _, [] => False

end

theorem renderedEach_eq (entries : List Entry) : renderedEach entries = entries.map rendered := by
  induction entries with
  | nil => rfl
  | cons entry rest ih => rw [renderedEach, ih, List.map_cons]

theorem toMembers_eq (entries : List Entry) : toMembers entries = entries.map toMember := by
  induction entries with
  | nil => rfl
  | cons entry rest ih => rw [toMembers, ih, List.map_cons]

theorem fingerprint_rendered (entry : Entry) :
    fingerprint (rendered entry) = fingerprint entry := by
  cases entry <;> rfl

theorem listing_renderedEach (entries : List Entry) :
    listing (renderedEach entries) = listing entries := by
  unfold listing
  induction entries with
  | nil => rfl
  | cons entry rest ih =>
    rw [renderedEach, List.flatMap_cons, List.flatMap_cons, fingerprint_rendered, ih]

variable {hash : Hash}

theorem listDigest_of_rendered {left right : List Entry}
    (same : renderedEach left = renderedEach right) :
    listDigest hash left = listDigest hash right := by
  have listed : listing left = listing right := by
    rw [← listing_renderedEach left, same, listing_renderedEach right]
  exact congrArg hash listed

/-- What is the same of entries that agree is the same of lists that do. -/
theorem map_of_alike {α : Type} {view : Entry → α} {left right : List Entry}
    (each : ∀ entry ∈ left, ∀ other ∈ right, Alike entry other → view entry = view other)
    (alike : AlikeEach left right) : left.map view = right.map view := by
  induction left generalizing right with
  | nil =>
    cases right with
    | nil => rfl
    | cons other others => exact alike.elim
  | cons entry rest ih =>
    cases right with
    | nil => exact alike.elim
    | cons other others =>
      have here := each entry List.mem_cons_self other List.mem_cons_self alike.1
      have later := ih (fun entry present other present' =>
        each entry (List.mem_cons_of_mem _ present) other (List.mem_cons_of_mem _ present')) alike.2
      rw [List.map_cons, List.map_cons, here, later]

/-- Digests are those of what is alike, so that there is nothing else left to differ. -/
theorem rendered_of_alike (entry : Entry) : ∀ other, Digested hash entry → Digested hash other →
    Alike entry other → rendered entry = rendered other := by
  induction entry using induct with
  | file name content stamp digest =>
    intro other entryDigested otherDigested alike
    cases entryDigested
    cases otherDigested with
    | file =>
      obtain ⟨rfl, rfl⟩ := alike
      rfl
    | directory _ => exact alike.elim
    | archive => exact alike.elim
  | directory name children digest ih =>
    intro other entryDigested otherDigested alike
    cases entryDigested with
    | directory inner =>
      cases otherDigested with
      | file => exact alike.elim
      | @directory name' children' inner' =>
        obtain ⟨rfl, alike⟩ := alike
        have same : renderedEach children = renderedEach children' := by
          rw [renderedEach_eq, renderedEach_eq]
          exact map_of_alike (fun child here other there =>
            ih child here other (inner child here) (inner' other there)) alike
        have digests : listDigest hash children = listDigest hash children' :=
          listDigest_of_rendered same
        simp only [ofDirectory, rendered, same, digests]
      | archive => exact alike.elim
  | archive name members bytes digest _ =>
    intro other entryDigested otherDigested alike
    cases entryDigested
    cases otherDigested with
    | file => exact alike.elim
    | directory _ => exact alike.elim
    | archive =>
      obtain ⟨rfl, rfl⟩ := alike
      rfl

theorem renderedEach_of_alike {left right : List Entry}
    (leftDigested : ∀ entry ∈ left, Digested hash entry)
    (rightDigested : ∀ entry ∈ right, Digested hash entry) (alike : AlikeEach left right) :
    renderedEach left = renderedEach right := by
  rw [renderedEach_eq, renderedEach_eq]
  exact map_of_alike (fun entry here other there =>
    rendered_of_alike entry other (leftDigested entry here) (rightDigested other there)) alike

/-- What is alike is the same in an archive. -/
theorem toMember_of_alike (entry : Entry) : ∀ other, Alike entry other →
    toMember entry = toMember other := by
  induction entry using induct with
  | file name content stamp digest =>
    intro other alike
    cases other with
    | file => rw [toMember, toMember, alike.1, alike.2]
    | directory => exact alike.elim
    | archive => exact alike.elim
  | directory name children digest ih =>
    intro other alike
    cases other with
    | file => exact alike.elim
    | directory =>
      have same := map_of_alike (fun child here other _ => ih child here other) alike.2
      rw [toMember, toMember, alike.1, toMembers_eq, toMembers_eq, same]
    | archive => exact alike.elim
  | archive name members bytes digest _ =>
    intro other alike
    cases other with
    | file => exact alike.elim
    | directory => exact alike.elim
    | archive => rw [toMember, toMember, alike.1, alike.2]

theorem fingerprint_ne_nil (entry : Entry) : fingerprint entry ≠ [] := by
  intro empty
  have length := congrArg List.length empty
  simp [fingerprint] at length

/-- A fingerprint can be told apart from what follows it. -/
theorem fingerprint_append {left right : Entry} {after after' : Bytes}
    (lengths : left.digest.bytes.length = right.digest.bytes.length)
    (same : fingerprint left ++ after = fingerprint right ++ after') :
    left.name = right.name ∧ left.kindByte = right.kindByte ∧ left.digest = right.digest ∧
      after = after' := by
  have short : ∀ name : Name, name.bytes.length < Bytes.limit 8 := by
    intro name
    have bound := ((Name.fault?_eq_none_iff name.bytes).mp name.valid).2.2.2.1
    exact Nat.lt_of_le_of_lt bound (by decide)
  simp only [fingerprint, List.append_assoc, List.cons_append] at same
  obtain ⟨lengthSame, same⟩ := List.append_inj same (by simp)
  have equal : left.name.bytes.length = right.name.bytes.length := by
    rw [← Bytes.toNat_ofNat 8 _ (short left.name), lengthSame,
      Bytes.toNat_ofNat 8 _ (short right.name)]
  obtain ⟨nameSame, same⟩ := List.append_inj same equal
  obtain ⟨kindSame, same⟩ := List.cons.inj same
  obtain ⟨digestSame, same⟩ := List.append_inj same lengths
  exact ⟨Name.ext nameSame, kindSame, congrArg Digest.mk digestSame, same⟩

section Digests

variable (lengths : ∀ content, (hash content).bytes.length = 32)

include lengths

theorem Digested.length_digest {entry : Entry} (digested : Digested hash entry) :
    entry.digest.bytes.length = 32 := by
  cases digested with
  | file name content stamp => exact lengths content
  | directory _ => exact lengths _
  | archive name members bytes => exact lengths bytes

/-- Lists with the same listing agree entry by entry, if this holds of what the listing mentions. -/
theorem alikeEach_of_listing {strings : List Bytes} {left right : List Entry}
    (alike : ∀ entry ∈ left, ∀ other, Digested hash entry → Digested hash other →
      digested entry ⊆ strings → digested other ⊆ strings → entry.name = other.name →
      entry.kindByte = other.kindByte → entry.digest = other.digest → Alike entry other)
    (leftDigested : ∀ entry ∈ left, Digested hash entry)
    (rightDigested : ∀ entry ∈ right, Digested hash entry)
    (leftStrings : digestedEach left ⊆ strings) (rightStrings : digestedEach right ⊆ strings)
    (same : listing left = listing right) : AlikeEach left right := by
  induction left generalizing right with
  | nil =>
    cases right with
    | nil => trivial
    | cons entry rest =>
      simp only [listing, List.flatMap_nil, List.flatMap_cons] at same
      exact absurd (List.append_eq_nil_iff.mp same.symm).1 (fingerprint_ne_nil entry)
  | cons entry rest ih =>
    cases right with
    | nil =>
      simp only [listing, List.flatMap_nil, List.flatMap_cons] at same
      exact absurd (List.append_eq_nil_iff.mp same).1 (fingerprint_ne_nil entry)
    | cons other others =>
      simp only [listing, List.flatMap_cons] at same
      obtain ⟨entryDigested, leftDigested⟩ := List.forall_mem_cons.mp leftDigested
      obtain ⟨otherDigested, rightDigested⟩ := List.forall_mem_cons.mp rightDigested
      obtain ⟨name, kind, digest, later⟩ := fingerprint_append
        ((entryDigested.length_digest lengths).trans (otherDigested.length_digest lengths).symm)
          same
      simp only [digestedEach, List.append_subset] at leftStrings rightStrings
      obtain ⟨here, there⟩ := List.forall_mem_cons.mp alike
      exact ⟨here other entryDigested otherDigested leftStrings.1 rightStrings.1 name kind digest,
        ih there leftDigested rightDigested leftStrings.2 rightStrings.2 later⟩

theorem alike_of_digest {strings : List Bytes} (separates : hash.Separates strings)
    (entry : Entry) : ∀ other, Digested hash entry → Digested hash other →
      digested entry ⊆ strings → digested other ⊆ strings → entry.name = other.name →
      entry.kindByte = other.kindByte → entry.digest = other.digest → Alike entry other := by
  induction entry using induct with
  | file name content stamp digest =>
    intro other entryDigested otherDigested entryStrings otherStrings nameSame kindSame digestSame
    cases entryDigested
    cases otherDigested with
    | file name' content' stamp' =>
      exact ⟨nameSame, separates content (entryStrings List.mem_cons_self) content'
        (otherStrings List.mem_cons_self) digestSame⟩
    | directory _ => cases kindSame
    | archive => cases kindSame
  | directory name children digest ih =>
    intro other entryDigested otherDigested entryStrings otherStrings nameSame kindSame digestSame
    cases entryDigested with
    | directory inner =>
      cases otherDigested with
      | file => cases kindSame
      | directory inner' =>
        obtain ⟨entryListed, entryStrings⟩ := List.cons_subset.mp entryStrings
        obtain ⟨otherListed, otherStrings⟩ := List.cons_subset.mp otherStrings
        have same := separates _ entryListed _ otherListed digestSame
        exact ⟨nameSame,
          alikeEach_of_listing lengths ih inner inner' entryStrings otherStrings same⟩
      | archive => cases kindSame
  | archive name members bytes digest _ =>
    intro other entryDigested otherDigested entryStrings otherStrings nameSame kindSame digestSame
    cases entryDigested
    cases otherDigested with
    | file => cases kindSame
    | directory _ => cases kindSame
    | archive name' members' bytes' =>
      exact ⟨nameSame, separates bytes (entryStrings List.mem_cons_self) bytes'
        (otherStrings List.mem_cons_self) digestSame⟩

/-- Lists with the same digest are alike, unless byte strings collide. -/
theorem alikeEach_of_listDigest {strings : List Bytes} (separates : hash.Separates strings)
    {left right : List Entry} (leftDigested : ∀ entry ∈ left, Digested hash entry)
    (rightDigested : ∀ entry ∈ right, Digested hash entry)
    (leftStrings : listing left :: digestedEach left ⊆ strings)
    (rightStrings : listing right :: digestedEach right ⊆ strings)
    (same : listDigest hash left = listDigest hash right) : AlikeEach left right := by
  rw [List.cons_subset] at leftStrings rightStrings
  exact alikeEach_of_listing lengths (fun entry _ => alike_of_digest lengths separates entry)
    leftDigested rightDigested leftStrings.2 rightStrings.2
    (separates _ leftStrings.1 _ rightStrings.1 same)

/-- The digest of a list, its rendering, and what its entries are at every depth tell the same. -/
theorem listDigest_eq_iff {left right : List Entry}
    (leftDigested : ∀ entry ∈ left, Digested hash entry)
    (rightDigested : ∀ entry ∈ right, Digested hash entry)
    (separates : hash.Separates
      (listing left :: digestedEach left ++ listing right :: digestedEach right)) :
    (listDigest hash left = listDigest hash right ↔ renderedEach left = renderedEach right) ∧
      (renderedEach left = renderedEach right ↔ AlikeEach left right) := by
  have alike (same : listDigest hash left = listDigest hash right) : AlikeEach left right :=
    alikeEach_of_listDigest lengths separates leftDigested rightDigested
      (List.subset_append_left _ _) (List.subset_append_right _ _) same
  constructor
  · exact ⟨fun same => renderedEach_of_alike leftDigested rightDigested (alike same),
      listDigest_of_rendered⟩
  · exact ⟨fun same => alike (listDigest_of_rendered same),
      renderedEach_of_alike leftDigested rightDigested⟩

end Digests

end Entry

end Depot

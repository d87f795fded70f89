import Depot.Member

set_option autoImplicit false

namespace Depot.Member

mutual

def Unambiguous : Member → Prop
  | file .. => True
  | directory _ children => (children.map name).Nodup ∧ EachUnambiguous children

/-- No directory in any member of a list has two members of one name. -/
def EachUnambiguous : List Member → Prop
  | [] => True
  | member :: rest => Unambiguous member ∧ EachUnambiguous rest

end

/-- No directory has two members of one name, the root directory that holds the list included. -/
def DistinctNames (members : List Member) : Prop :=
  (members.map name).Nodup ∧ EachUnambiguous members

mutual

def height : Member → Nat
  | file .. => 0
  | directory _ children => levels children + 1

/-- How many levels of directories lie below a directory that holds the list. -/
def levels : List Member → Nat
  | [] => 0
  | member :: rest => max (height member) (levels rest)

end

mutual

/-- The lengths of all files in a member are numbers of eight bytes. -/
def Measurable : Member → Prop
  | file _ content => content.length < Bytes.limit 8
  | directory _ children => EachMeasurable children

/-- The lengths of all files in the members of a list are numbers of eight bytes. -/
def EachMeasurable : List Member → Prop
  | [] => True
  | member :: rest => Measurable member ∧ EachMeasurable rest

end

mutual

instance decidableUnambiguous : (member : Member) → Decidable member.Unambiguous
  | file .. => .isTrue trivial
  | directory _ children =>
    have := decidableEachUnambiguous children
    inferInstanceAs (Decidable ((children.map name).Nodup ∧ EachUnambiguous children))

instance decidableEachUnambiguous : (members : List Member) → Decidable (EachUnambiguous members)
  | [] => .isTrue trivial
  | member :: rest =>
    have := decidableUnambiguous member
    have := decidableEachUnambiguous rest
    inferInstanceAs (Decidable (Unambiguous member ∧ EachUnambiguous rest))

end

instance (members : List Member) : Decidable (DistinctNames members) :=
  inferInstanceAs (Decidable (_ ∧ _))

theorem distinctNames_cons (member : Member) (rest : List Member) :
    DistinctNames (member :: rest) ↔
      member.name ∉ rest.map name ∧ Unambiguous member ∧ DistinctNames rest := by
  simp only [DistinctNames, EachUnambiguous, List.map_cons, List.nodup_cons]
  constructor
  · rintro ⟨⟨fresh, distinct⟩, first, others⟩
    exact ⟨fresh, first, distinct, others⟩
  · rintro ⟨fresh, first, distinct, others⟩
    exact ⟨⟨fresh, distinct⟩, first, others⟩

/-- A member can be read where at most so many levels of directories are left. -/
def Readable (depth : Nat) (member : Member) : Prop :=
  height member ≤ depth ∧ Unambiguous member ∧ Measurable member

/-- The members of a directory can be read if at most so many levels of directories are left. -/
def EachReadable (depth : Nat) (members : List Member) : Prop :=
  levels members ≤ depth ∧ DistinctNames members ∧ EachMeasurable members

theorem eachReadable_nil (depth : Nat) : EachReadable depth [] :=
  ⟨Nat.zero_le depth, ⟨List.nodup_nil, trivial⟩, trivial⟩

theorem eachReadable_cons (depth : Nat) (member : Member) (rest : List Member) :
    EachReadable depth (member :: rest) ↔
      member.name ∉ rest.map name ∧ Readable depth member ∧ EachReadable depth rest := by
  simp only [EachReadable, Readable, levels, EachMeasurable, distinctNames_cons, Nat.max_le]
  constructor
  · rintro ⟨⟨low, shallow⟩, ⟨fresh, first, distinct⟩, fits, others⟩
    exact ⟨fresh, ⟨low, first, fits⟩, shallow, distinct, others⟩
  · rintro ⟨fresh, ⟨low, first, fits⟩, shallow, distinct, others⟩
    exact ⟨⟨low, shallow⟩, ⟨fresh, first, distinct⟩, fits, others⟩

theorem readable_file (depth : Nat) (name : Name) (content : Bytes) :
    Readable depth (file name content) ↔ content.length < Bytes.limit 8 :=
  ⟨fun readable => readable.2.2, fun fits => ⟨Nat.zero_le depth, trivial, fits⟩⟩

theorem readable_directory (depth : Nat) (name : Name) (children : List Member) :
    Readable depth (directory name children) ↔
      levels children < depth ∧ DistinctNames children ∧ EachMeasurable children :=
  Iff.rfl

end Depot.Member

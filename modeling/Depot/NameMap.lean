set_option autoImplicit false

namespace Depot

/-- A map from texts, kept as a list that ascends strictly by key. -/
structure NameMap (α : Type) where
  entries : List (String × α)
  ascending : entries.Pairwise fun left right => left.1 < right.1

namespace NameMap

variable {α β : Type}

def empty : NameMap α := ⟨[], .nil⟩

instance : Inhabited (NameMap α) := ⟨empty⟩

def find? (map : NameMap α) (key : String) : Option α :=
  (map.entries.find? fun entry => entry.1 = key).map Prod.snd

def contains (map : NameMap α) (key : String) : Bool :=
  map.entries.any fun entry => entry.1 = key

def keys (map : NameMap α) : List String :=
  map.entries.map Prod.fst

def values (map : NameMap α) : List α :=
  map.entries.map Prod.snd

def size (map : NameMap α) : Nat :=
  map.entries.length

/-- An ascending list with one more entry, which takes the place of one with the same key. -/
def insertEntry (key : String) (value : α) : List (String × α) → List (String × α)
  | [] => [(key, value)]
  | entry :: rest =>
    if key < entry.1 then (key, value) :: entry :: rest
    else if key = entry.1 then (key, value) :: rest
    else entry :: insertEntry key value rest

theorem mem_insertEntry {key : String} {value : α} {entries : List (String × α)}
    {entry : String × α} (present : entry ∈ insertEntry key value entries) :
    entry = (key, value) ∨ entry ∈ entries := by
  induction entries with
  | nil => simpa [insertEntry] using present
  | cons head rest ih =>
    unfold insertEntry at present
    split at present
    · simpa using present
    · split at present
      · grind
      · grind

theorem ascending_insertEntry (key : String) (value : α) (entries : List (String × α))
    (ascending : entries.Pairwise fun left right => left.1 < right.1) :
    (insertEntry key value entries).Pairwise fun left right => left.1 < right.1 := by
  induction entries with
  | nil => simp [insertEntry]
  | cons head rest ih =>
    obtain ⟨first, others⟩ := List.pairwise_cons.mp ascending
    unfold insertEntry
    split
    · next before =>
      refine List.pairwise_cons.mpr ⟨?_, ascending⟩
      intro entry present
      rcases List.mem_cons.mp present with rfl | later
      · exact before
      · exact String.lt_trans before (first entry later)
    · split
      · next same =>
        refine List.pairwise_cons.mpr ⟨?_, others⟩
        intro entry later
        simpa [same] using first entry later
      · next notBefore different =>
        refine List.pairwise_cons.mpr ⟨?_, ih others⟩
        intro entry present
        rcases mem_insertEntry present with rfl | later
        · exact Std.lt_of_le_of_ne (Std.not_lt.mp notBefore) (Ne.symm different)
        · exact first entry later

def insert (map : NameMap α) (key : String) (value : α) : NameMap α :=
  ⟨insertEntry key value map.entries, ascending_insertEntry key value map.entries map.ascending⟩

def filter (keep : String → α → Bool) (map : NameMap α) : NameMap α :=
  ⟨map.entries.filter fun entry => keep entry.1 entry.2, map.ascending.filter _⟩

def erase (map : NameMap α) (key : String) : NameMap α :=
  map.filter fun other _ => other ≠ key

/-- The map with the given values, of which the last for a key counts. -/
def ofList (entries : List (String × α)) : NameMap α :=
  entries.foldl (fun map entry => map.insert entry.1 entry.2) empty

end NameMap

end Depot

import Depot.Registry

set_option autoImplicit false

namespace Depot

namespace NameMap

variable {α : Type} {map : NameMap α} {key : String} {value : α}

theorem find?_insert (map : NameMap α) (key : String) (value : α) (other : String) :
    (map.insert key value).find? other = if other = key then some value else map.find? other := by
  simp only [find?, insert]
  generalize map.entries = entries
  induction entries with
  | nil =>
    by_cases same : other = key
    · simp [insertEntry, same]
    · simp [insertEntry, same, Ne.symm same]
  | cons head rest ih =>
    unfold insertEntry
    split
    · by_cases same : other = key
      · simp [same]
      · simp [same, Ne.symm same, List.find?_cons_of_neg]
    · split
      · next replaced =>
        by_cases same : other = key
        · simp [same]
        · have headOther : ¬ head.1 = other := fun equal => same (replaced.trans equal).symm
          simp [same, Ne.symm same, headOther]
      · next _ apart =>
        by_cases here : head.1 = other
        · have unequal : ¬ other = key := fun same => apart (here.trans same).symm
          simp [here, unequal]
        · rw [List.find?_cons_of_neg (by simpa using here), ih,
            List.find?_cons_of_neg (by simpa using here)]

theorem find?_filter (map : NameMap α) (keep : String → Bool) (key : String) :
    (map.filter fun name _ => keep name).find? key = if keep key then map.find? key else none := by
  simp only [find?, filter, List.find?_filter]
  by_cases kept : keep key = true
  · rw [if_pos kept]
    congr 2
    funext entry
    by_cases same : entry.1 = key
    · simp [same, kept]
    · simp [same]
  · rw [if_neg kept, Option.map_eq_none_iff]
    refine List.find?_eq_none.mpr fun entry _ => ?_
    by_cases same : entry.1 = key
    · simp [same, kept]
    · simp [same]

theorem find?_erase (map : NameMap α) (key other : String) :
    (map.erase key).find? other = if other = key then none else map.find? other := by
  have kept := find?_filter map (fun name => decide (name ≠ key)) other
  by_cases same : other = key
  · simpa [erase, same] using kept
  · simpa [erase, same] using kept

theorem find?_eq_some : map.find? key = some value ↔ (key, value) ∈ map.entries := by
  obtain ⟨entries, ascending⟩ := map
  simp only [find?]
  induction entries with
  | nil => simp
  | cons head rest ih =>
    obtain ⟨first, others⟩ := List.pairwise_cons.mp ascending
    by_cases here : head.1 = key
    · rw [List.find?_cons_of_pos (by simpa using here)]
      constructor
      · rintro ⟨⟩
        rw [← here]
        exact List.mem_cons_self
      · intro present
        rcases List.mem_cons.mp present with rfl | later
        · rfl
        · exact absurd (here ▸ first _ later) (String.lt_irrefl _)
    · rw [List.find?_cons_of_neg (by simpa using here), ih others]
      constructor
      · exact List.mem_cons_of_mem _
      · intro present
        rcases List.mem_cons.mp present with rfl | later
        · exact absurd rfl here
        · exact later

theorem mem_values (found : map.find? key = some value) : value ∈ map.values :=
  List.mem_map_of_mem (find?_eq_some.mp found)

theorem mem_keys (found : map.find? key = some value) : key ∈ map.keys :=
  List.mem_map_of_mem (find?_eq_some.mp found)

/-- A key that gets the value that it has. -/
theorem insert_same (found : map.find? key = some value) : map.insert key value = map := by
  have present := find?_eq_some.mp found
  obtain ⟨entries, ascending⟩ := map
  simp only [insert, mk.injEq]
  induction entries with
  | nil => cases present
  | cons head rest ih =>
    obtain ⟨first, others⟩ := List.pairwise_cons.mp ascending
    rw [insertEntry]
    rcases List.mem_cons.mp present with rfl | later
    · simp
    · have above : head.1 < key := first _ later
      have notBefore : ¬ key < head.1 := fun before =>
        String.lt_irrefl _ (String.lt_trans before above)
      have unequal : ¬ key = head.1 := fun same => String.lt_irrefl _ (same ▸ above)
      rw [if_neg notBefore, if_neg unequal,
        ih others (find?_eq_some.mpr later : (⟨rest, others⟩ : NameMap α).find? key = _) later]

/-- A key above all others goes to the end. -/
theorem insertEntry_append {entries : List (String × α)}
    (above : ∀ entry ∈ entries, entry.1 < key) :
    insertEntry key value entries = entries ++ [(key, value)] := by
  induction entries with
  | nil => rfl
  | cons head rest ih =>
    obtain ⟨first, later⟩ := List.forall_mem_cons.mp above
    have notBefore : ¬ key < head.1 := fun before =>
      String.lt_irrefl _ (String.lt_trans before first)
    have unequal : ¬ key = head.1 := fun same => String.lt_irrefl _ (same ▸ first)
    rw [insertEntry, if_neg notBefore, if_neg unequal, ih later, List.cons_append]

/-- Entries that ascend beyond those of a map go to its end one by one. -/
theorem entries_foldl_insert {rest : List (String × α)}
    (ascending : (map.entries ++ rest).Pairwise fun left right => left.1 < right.1) :
    (rest.foldl (fun map entry => map.insert entry.1 entry.2) map).entries =
      map.entries ++ rest := by
  induction rest generalizing map with
  | nil => rw [List.foldl_nil, List.append_nil]
  | cons head rest ih =>
    have above : ∀ entry ∈ map.entries, entry.1 < head.1 := fun entry present =>
      (List.pairwise_append.mp ascending).2.2 entry present head List.mem_cons_self
    have grown : (map.insert head.1 head.2).entries = map.entries ++ [head] :=
      insertEntry_append above
    rw [List.foldl_cons, ih, grown, List.append_assoc, List.singleton_append]
    rwa [grown, List.append_assoc, List.singleton_append]

/-- A map is made again of its entries. -/
theorem ofList_entries (map : NameMap α) : ofList map.entries = map := by
  have same : (ofList map.entries).entries = map.entries := entries_foldl_insert map.ascending
  generalize ofList map.entries = made at same
  obtain ⟨entries, ascending⟩ := made
  cases same
  rfl

end NameMap

namespace Registry

variable {registry : Registry} {name : String} {artifact : Artifact}

theorem find?_eq_some :
    registry.find? name = some artifact ↔
      artifact ∈ registry.artifacts.values ∧ artifact.name = name := by
  rw [find?, NameMap.find?_eq_some]
  constructor
  · intro present
    exact ⟨List.mem_map_of_mem present, registry.named _ present⟩
  · rintro ⟨held, rfl⟩
    obtain ⟨⟨key, value⟩, present, rfl⟩ := List.mem_map.mp held
    rwa [registry.named _ present]

/-- The artifacts are listed in the order of their names. -/
theorem values_ascending (registry : Registry) :
    registry.artifacts.values.Pairwise fun first second => first.name < second.name := by
  rw [NameMap.values, List.pairwise_map]
  refine registry.artifacts.ascending.imp_of_mem fun {first second} here there before => ?_
  rwa [registry.named first here, registry.named second there]

theorem names_eq (registry : Registry) :
    registry.names = registry.artifacts.values.map Artifact.name := by
  rw [names, NameMap.keys, NameMap.values, List.map_map]
  exact List.map_congr_left fun entry present => (registry.named entry present).symm

theorem names_nodup (registry : Registry) :
    (registry.artifacts.values.map Artifact.name).Nodup := by
  rw [List.Nodup, List.pairwise_map]
  exact registry.values_ascending.imp fun before same => absurd (same ▸ before) (String.lt_irrefl _)

end Registry

end Depot

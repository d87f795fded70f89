import Depot.Import
import Depot.Path.Flat
import Depot.Proofs.Path
import Mathlib.Data.List.Induction

set_option autoImplicit false

namespace Depot.Path

/-- A path is the root or the path of a child. -/
theorem root_or_push (path : Path) : path = root ∨ ∃ front name, path = push front name := by
  obtain ⟨names⟩ := path
  rcases List.eq_nil_or_concat names with rfl | ⟨front, name, rfl⟩
  · exact .inl rfl
  · exact .inr ⟨⟨front⟩, name, by rw [push, List.concat_eq_append]⟩

theorem parent?_push (path : Path) (name : Name) : (path.push name).parent? = some path := by
  obtain ⟨names⟩ := path
  cases names with
  | nil => rfl
  | cons first rest =>
    have last : ((first :: rest) ++ [name]).dropLast = first :: rest := List.dropLast_concat
    exact congrArg (fun names => some (Path.mk names)) last

theorem intercalate_concat {all : List Bytes} (filled : all ≠ []) (last : Bytes) :
    [Name.slash].intercalate (all ++ [last]) =
      [Name.slash].intercalate all ++ Name.slash :: last := by
  induction all with
  | nil => exact absurd rfl filled
  | cons first rest ih =>
    cases rest with
    | nil => simp [List.intercalate_cons_cons]
    | cons second rest =>
      have inner := ih (List.cons_ne_nil second rest)
      rw [List.cons_append, List.intercalate_cons_of_ne_nil (by simp), inner,
        List.intercalate_cons_cons, List.append_assoc _ _ (_ :: _)]

/-- The parts of a path that has names are its names. -/
theorem parts_bytes {path : Path} (filled : path.names ≠ []) :
    parts path.bytes = path.names.map Name.bytes := by
  refine parts_eq_iff.mpr ⟨by simpa using filled, fun part present => ?_, rfl⟩
  obtain ⟨name, _, rfl⟩ := List.mem_map.mp present
  exact name.facts.2.2.2

/-- Only the root is the empty string. -/
theorem bytes_eq_nil_iff {path : Path} : path.bytes = [] ↔ path.names = [] := by
  constructor
  · intro empty
    by_contra filled
    have split := parts_bytes filled
    rw [empty, show parts [] = [[]] from rfl] at split
    obtain ⟨name, _, none⟩ := List.mem_map.mp (split ▸ List.mem_singleton_self [])
    exact name.facts.1 none
  · intro empty
    rw [bytes, empty]
    rfl

/-- Names are read back one by one. -/
theorem mapM_bytes {ε : Type} {read : Bytes → Except ε Name} {names : List Name}
    (reads : ∀ name ∈ names, read name.bytes = .ok name) :
    (names.map Name.bytes).mapM read = .ok names := by
  induction names with
  | nil => rfl
  | cons name rest ih =>
    obtain ⟨first, later⟩ := List.forall_mem_cons.mp reads
    rw [List.map_cons, List.mapM_cons, first, ih later]
    rfl

/-- A path is read back from its bytes. -/
theorem ofBytes_bytes (path : Path) : ofBytes path.bytes = .ok path := by
  by_cases empty : path.names = []
  · rw [ofBytes, if_pos (bytes_eq_nil_iff.mpr empty), root, ← empty]
  · rw [ofBytes, if_neg (mt bytes_eq_nil_iff.mp empty), parts_bytes empty,
      mapM_bytes fun name _ => name.ofBytes_bytes]
    rfl

/-- The bytes of a path whose names are texts are those of a text. -/
theorem exists_text {path : Path} (textual : ∀ name ∈ path.names, name.Textual) :
    ∃ text, path.bytes = Bytes.ofString text := by
  have slash : [Name.slash] = Bytes.ofString "/" := by decide
  have append (left right : String) :
      Bytes.ofString left ++ Bytes.ofString right = Bytes.ofString (left ++ right) := by
    simp [Bytes.ofString]
  obtain ⟨names⟩ := path
  simp only [Path.bytes]
  induction names with
  | nil => exact ⟨"", by decide⟩
  | cons name rest ih =>
    obtain ⟨first, later⟩ := List.forall_mem_cons.mp textual
    obtain ⟨text, same⟩ := ih later
    cases rest with
    | nil => exact ⟨name.display, by simpa using first.symm⟩
    | cons next rest =>
      refine ⟨name.display ++ "/" ++ text, ?_⟩
      rw [List.map_cons, List.map_cons, List.intercalate_cons_cons, ← List.map_cons,
        same, ← first, slash, append, append]

/-- A path whose names are texts is read back from what it displays as. -/
theorem ofString_display {path : Path} (textual : ∀ name ∈ path.names, name.Textual) :
    ofString path.display = .ok path := by
  obtain ⟨text, same⟩ := exists_text textual
  rw [ofString, display, same, Text.Utf8.lossy_ofString, ← same, ofBytes_bytes]

namespace Flat

theorem components_bytes (path : Path) : components path.bytes = path.names.map Name.bytes := by
  by_cases empty : path.names = []
  · rw [bytes_eq_nil_iff.mpr empty, empty]
    rfl
  · rw [components, if_neg (mt bytes_eq_nil_iff.mp empty), parts_bytes empty]

theorem names_of_bytes {left right : List Name}
    (same : left.map Name.bytes = right.map Name.bytes) :
    left = right :=
  List.map_injective_iff.mpr (fun _ _ => Name.ext) same

/-- Paths with the same bytes have the same names. -/
theorem bytes_injective : Function.Injective Path.bytes := by
  intro left right same
  have names := congrArg components same
  rw [components_bytes, components_bytes] at names
  exact congrArg Path.mk (names_of_bytes names)

theorem ofName_bytes (name : Name) : (Path.ofName name).bytes = ofName name :=
  List.intercalate_singleton

theorem push_bytes (path : Path) (name : Name) : (path.push name).bytes = push path.bytes name := by
  by_cases empty : path.names = []
  · rw [push, if_pos (bytes_eq_nil_iff.mpr empty), Path.bytes, Path.push, empty]
    exact List.intercalate_singleton
  · have filled : path.names.map Name.bytes ≠ [] := by simpa using empty
    rw [push, if_neg (mt bytes_eq_nil_iff.mp empty), Path.bytes, Path.push, List.map_append,
      List.map_singleton, intercalate_concat filled, List.append_assoc]
    rfl

theorem cutLast?_whole {bytes : Bytes} (whole : Name.slash ∉ bytes) : cutLast? bytes = none := by
  induction bytes with
  | nil => rfl
  | cons byte rest ih =>
    obtain ⟨unequal, later⟩ := not_or.mp (mt List.mem_cons.mpr whole)
    simp only [cutLast?, ih later, if_neg (Ne.symm unequal)]

theorem cutLast?_slash (front : Bytes) {back : Bytes} (whole : Name.slash ∉ back) :
    cutLast? (front ++ Name.slash :: back) = some (front, back) := by
  induction front with
  | nil => simp only [List.nil_append, cutLast?, cutLast?_whole whole, if_true]
  | cons byte front ih => simp only [List.cons_append, cutLast?, ih]

theorem parent?_bytes (path : Path) : parent? path.bytes = path.parent?.map Path.bytes := by
  rcases root_or_push path with rfl | ⟨front, name, rfl⟩
  · rfl
  · have whole := name.facts.2.2.2
    have filled : (front.push name).bytes ≠ [] := by simp [bytes_eq_nil_iff, Path.push]
    rw [parent?_push, parent?, if_neg filled, push_bytes, push]
    by_cases empty : front.names = []
    · rw [if_pos (bytes_eq_nil_iff.mpr empty), List.nil_append, cutLast?_whole whole]
      exact congrArg some (bytes_eq_nil_iff.mpr empty).symm
    · rw [if_neg (mt bytes_eq_nil_iff.mp empty), List.append_assoc, List.singleton_append,
        cutLast?_slash _ whole]
      rfl

theorem name?_bytes (path : Path) : name? path.bytes = path.name?.map Name.bytes := by
  rw [name?, components_bytes, List.getLast?_map, Path.name?]

theorem check_eq_ok_iff {all : List Bytes} :
    check all = .ok () ↔ ∀ part ∈ all, Name.fault? part = none := by
  induction all with
  | nil => simp [check]
  | cons part rest ih =>
    cases fault : Name.fault? part with
    | none => simp [check, fault, ih]
    | some error => simp [check, fault]

theorem parse_eq_ok_iff {bytes path : Bytes} :
    parse bytes = .ok path ↔
      path = bytes ∧ (bytes = [] ∨ ∀ part ∈ parts bytes, Name.fault? part = none) := by
  by_cases empty : bytes = []
  · simp [parse, empty, pure, Except.pure, eq_comm]
  · rw [parse, if_pos empty, bind_unit_ok_iff, check_eq_ok_iff]
    simp [empty, pure, Except.pure, and_comm, eq_comm]

/-- A path is read back from its bytes. -/
theorem parse_bytes (path : Path) : parse path.bytes = .ok path.bytes := by
  refine parse_eq_ok_iff.mpr ⟨rfl, ?_⟩
  by_cases empty : path.names = []
  · exact .inl (bytes_eq_nil_iff.mpr empty)
  · refine .inr fun part present => ?_
    obtain ⟨name, _, rfl⟩ := List.mem_map.mp (parts_bytes empty ▸ present)
    exact name.valid

/-- Parts that are read as names have their bytes, and to check parts is to read them. -/
theorem check_eq (all : List Bytes) :
    check all = (all.mapM Name.ofBytes).map (fun _ => ()) ∧
      ∀ names, all.mapM Name.ofBytes = .ok names → names.map Name.bytes = all := by
  induction all with
  | nil => exact ⟨rfl, fun names read => by cases read; rfl⟩
  | cons part rest ih =>
    obtain ⟨checked, same⟩ := ih
    rw [List.mapM_cons, check]
    split
    · next error fault =>
      have refused : Name.ofBytes part = .error error := by
        unfold Name.ofBytes
        split <;> simp_all
      rw [refused]
      exact ⟨rfl, fun names read => nomatch read⟩
    · next fault =>
      have read : Name.ofBytes part = .ok ⟨part, fault⟩ := Name.ofBytes_bytes ⟨part, fault⟩
      rw [read, checked]
      cases later : rest.mapM Name.ofBytes with
      | error error => exact ⟨rfl, fun names read => nomatch read⟩
      | ok others =>
        refine ⟨rfl, fun names read => ?_⟩
        cases read
        rw [List.map_cons, same others later]

/-- Reading a byte string as a list of names. -/
theorem parse_eq (bytes : Bytes) : parse bytes = (Path.ofBytes bytes).map Path.bytes := by
  by_cases empty : bytes = []
  · rw [parse, Path.ofBytes, if_neg (not_not.mpr empty), if_pos empty, empty]
    rfl
  · obtain ⟨checked, same⟩ := check_eq (parts bytes)
    rw [parse, Path.ofBytes, if_pos empty, if_neg empty, checked]
    cases read : (parts bytes).mapM Name.ofBytes with
    | error error => rfl
    | ok names =>
      refine congrArg Except.ok ?_
      rw [Path.bytes, same names read, intercalate_parts]

/-- Adding names one by one as they are read is reading all of them and adding them at once. -/
theorem foldlM_push {ε : Type} {step : Bytes → Bytes → Except ε Bytes}
    {read : Bytes → Except ε Name}
    (adds : ∀ path part, step path part = (read part).map (push path)) (path : Path)
    (all : List Bytes) :
    all.foldlM step path.bytes =
      (all.mapM read >>= fun names => .ok ⟨path.names ++ names⟩).map Path.bytes := by
  induction all generalizing path with
  | nil =>
    show Except.ok path.bytes = .ok (Path.mk (path.names ++ [])).bytes
    rw [List.append_nil]
  | cons part rest ih =>
    rw [List.foldlM_cons, List.mapM_cons, adds]
    cases read part with
    | error error => rfl
    | ok name =>
      have later := ih (path.push name)
      rw [push_bytes] at later
      show rest.foldlM step (push path.bytes name) = _
      rw [later]
      cases rest.mapM read with
      | error error => rfl
      | ok names =>
        refine congrArg (fun names => Except.ok (Path.mk names).bytes) ?_
        exact List.append_assoc path.names [name] names

/-- The path for a location as a list of names. -/
theorem ofLocation_eq (location : Disk.Location) :
    ofLocation location = (Import.pathFor location).map Path.bytes := by
  unfold ofLocation Import.pathFor
  by_cases absolute : Disk.Location.isAbsolute location
  · rw [if_pos absolute, if_pos absolute]
    rfl
  · rw [if_neg absolute, if_neg absolute]
    refine foldlM_push (fun path part => ?_) Path.root location.steps
    unfold descend
    split
    · rfl
    · cases Name.ofBytes part <;> rfl

/-- The byte strings that the operations make: of nothing, of texts, of names and of locations on a
disk, by adding names and by taking parents. -/
inductive Made : Bytes → Prop
  | root : Made root
  | read {bytes path : Bytes} (parsed : parse bytes = .ok path) : Made path
  | name (name : Name) : Made (ofName name)
  | located {location : Disk.Location} {path : Bytes} (read : ofLocation location = .ok path) :
    Made path
  | push {path : Bytes} (made : Made path) (name : Name) : Made (push path name)
  | parent {path parent : Bytes} (made : Made path) (held : parent? path = some parent) :
    Made parent

/-- Made are just the paths of lists of names. -/
theorem made_iff {bytes : Bytes} : Made bytes ↔ ∃ path : Path, path.bytes = bytes := by
  constructor
  · intro made
    induction made with
    | root => exact ⟨Path.root, rfl⟩
    | read parsed =>
      obtain ⟨path, _, same⟩ := map_ok_iff.mp (parse_eq _ ▸ parsed)
      exact ⟨path, same⟩
    | name name => exact ⟨Path.ofName name, ofName_bytes name⟩
    | located read =>
      obtain ⟨path, _, same⟩ := map_ok_iff.mp (ofLocation_eq _ ▸ read)
      exact ⟨path, same⟩
    | push _ name ih =>
      obtain ⟨path, rfl⟩ := ih
      exact ⟨path.push name, push_bytes path name⟩
    | parent _ held ih =>
      obtain ⟨path, rfl⟩ := ih
      rw [parent?_bytes] at held
      obtain ⟨front, _, same⟩ := Option.map_eq_some_iff.mp held
      exact ⟨front, same⟩
  · rintro ⟨⟨names⟩, rfl⟩
    induction names using List.reverseRecOn with
    | nil => exact .root
    | append_singleton front name ih =>
      have longer := ih.push name
      rwa [← push_bytes] at longer

theorem Made.components {path : Bytes} (made : Made path) :
    ∃ names : List Name, path = (Path.mk names).bytes ∧
      Flat.components path = names.map Name.bytes := by
  obtain ⟨⟨names⟩, rfl⟩ := made_iff.mp made
  exact ⟨names, rfl, components_bytes ⟨names⟩⟩

theorem Made.push_components {path : Bytes} (made : Made path) (name : Name) :
    Flat.components (Flat.push path name) = Flat.components path ++ [name.bytes] := by
  obtain ⟨path, rfl⟩ := made_iff.mp made
  rw [← push_bytes, components_bytes, components_bytes, Path.push, List.map_append,
    List.map_singleton]

theorem Made.parent_components {path : Bytes} (made : Made path) :
    (parent? path = none ↔ path = Flat.root) ∧
      ∀ parent, parent? path = some parent → Flat.components parent =
        (Flat.components path).dropLast := by
  obtain ⟨path, rfl⟩ := made_iff.mp made
  rw [parent?_bytes]
  rcases root_or_push path with rfl | ⟨front, name, rfl⟩
  · exact ⟨iff_of_true rfl rfl, fun parent held => nomatch held⟩
  · rw [parent?_push]
    refine ⟨iff_of_false nofun fun same => ?_, ?_⟩
    · have empty := bytes_eq_nil_iff.mp same
      simp [Path.push] at empty
    · intro parent held
      cases held
      rw [components_bytes, components_bytes, Path.push, List.map_append, List.map_singleton,
        List.dropLast_concat]

/-- Paths are exactly lists of names: what the operations make has names as its components, there is
one such path for each list, and the operations on byte strings do what those on lists do. A text is
read as a path if it is empty or all of its parts are names. -/
theorem made_represents :
    (∀ path, Made path → ∀ part ∈ components path, Name.fault? part = none) ∧
    (∀ names : List Name, ∃! path, Made path ∧ components path = names.map Name.bytes) ∧
    (∀ path other, Made path → Made other → (path = other ↔ components path = components other)) ∧
    (∀ path name, Made path → components (push path name) = components path ++ [name.bytes]) ∧
    (∀ name, components (ofName name) = [name.bytes]) ∧
    (∀ path, Made path → (parent? path = none ↔ path = root) ∧
      ∀ parent, parent? path = some parent → components parent = (components path).dropLast) ∧
    (∀ path, Made path → name? path = (components path).getLast?) ∧
    (∀ text path, parse (Bytes.ofString text) = .ok path ↔ path = Bytes.ofString text ∧
      (text = "" ∨ ∀ part ∈ parts (Bytes.ofString text), Name.fault? part = none)) ∧
    (∀ path text, Made path → Bytes.ofString text = path →
      parse (Bytes.ofString (Text.Utf8.lossy path)) = .ok path) ∧
    (∀ path : Path, Made path.bytes ∧ components path.bytes = path.names.map Name.bytes ∧
      (∀ name, (path.push name).bytes = push path.bytes name) ∧
      path.parent?.map Path.bytes = parent? path.bytes ∧
      path.name?.map Name.bytes = name? path.bytes) ∧
    (∀ bytes, (Path.ofBytes bytes).map Path.bytes = parse bytes) ∧
    (∀ location, (Import.pathFor location).map Path.bytes = ofLocation location) := by
  refine ⟨?valid, ?unique, ?equality, fun path name made => made.push_components name, ?single,
    fun path made => made.parent_components, fun path _ => rfl, ?read, ?again, ?kept,
    fun bytes => (parse_eq bytes).symm, fun location => (ofLocation_eq location).symm⟩
  case valid =>
    intro path made part present
    obtain ⟨names, _, same⟩ := made.components
    obtain ⟨name, _, rfl⟩ := List.mem_map.mp (same ▸ present)
    exact name.valid
  case unique =>
    intro names
    refine ⟨(Path.mk names).bytes, ⟨made_iff.mpr ⟨_, rfl⟩, components_bytes _⟩, ?_⟩
    rintro other ⟨made, same⟩
    obtain ⟨others, rfl, listed⟩ := made.components
    rw [names_of_bytes (listed.symm.trans same)]
  case equality =>
    intro path other made made'
    refine ⟨congrArg components, fun same => ?_⟩
    obtain ⟨names, rfl, listed⟩ := made.components
    obtain ⟨others, rfl, listed'⟩ := made'.components
    rw [names_of_bytes (listed.symm.trans (same.trans listed'))]
  case single =>
    intro name
    rw [← ofName_bytes, components_bytes]
    rfl
  case read =>
    intro text path
    have empty : Bytes.ofString text = [] ↔ text = "" :=
      ⟨fun none => Bytes.ofString_injective none, fun none => none ▸ rfl⟩
    rw [parse_eq_ok_iff, empty]
  case again =>
    rintro path text made rfl
    obtain ⟨path, same⟩ := made_iff.mp made
    rw [Text.Utf8.lossy_ofString, ← same, parse_bytes]
  case kept =>
    exact fun path => ⟨made_iff.mpr ⟨path, rfl⟩, components_bytes path, push_bytes path,
      (parent?_bytes path).symm, (name?_bytes path).symm⟩

/-- The path `web/é` is read back from what it displays as. -/
theorem made_represents_accented :
    Made (Bytes.ofString "web/é") ∧
      parse (Bytes.ofString (Text.Utf8.lossy (Bytes.ofString "web/é"))) =
        .ok (Bytes.ofString "web/é") := by
  have read : parse (Bytes.ofString "web/é") = .ok (Bytes.ofString "web/é") := by decide +kernel
  obtain ⟨_, _, _, _, _, _, _, _, again, _⟩ := made_represents
  exact ⟨.read read, again _ "web/é" (.read read) rfl⟩

end Flat

end Depot.Path

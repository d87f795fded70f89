import Depot.Manifest.Basic
import Depot.Proofs.Json.Text
import Depot.Proofs.NameMap
import Depot.Proofs.Text.Utf8

set_option autoImplicit false

namespace Depot

namespace Json

theorem mapM_of_forall₂ {α β : Type} {read : α → Option β} {inputs : List α} {outputs : List β}
    (each : List.Forall₂ (fun input output => read input = some output) inputs outputs) :
    inputs.mapM read = some outputs := by
  induction each with
  | nil => rfl
  | cons first _ ih =>
    rw [List.mapM_cons, first, ih]
    rfl

theorem valuesOf_of_mem {members : List (String × Json)} (distinct : (members.map Prod.fst).Nodup)
    {member : String × Json} (present : member ∈ members) :
    valuesOf member.1 members = [member.2] := by
  induction members with
  | nil => cases present
  | cons head rest ih =>
    obtain ⟨apart, others⟩ := List.nodup_cons.mp distinct
    rcases List.mem_cons.mp present with rfl | later
    · have none : rest.filter (fun other => other.1 = member.1) = [] := by
        refine List.filter_eq_nil_iff.mpr fun other held => ?_
        have unequal : other.1 ≠ member.1 := fun same => apart (same ▸ List.mem_map_of_mem held)
        simpa using unequal
      simp [valuesOf, none]
    · have unequal : head.1 ≠ member.1 := fun same => apart (same ▸ List.mem_map_of_mem later)
      have read := ih others later
      rw [valuesOf] at read ⊢
      rwa [List.filter_cons_of_neg (by simpa using unequal)]

/-- A record whose members are its fields, each of them once. -/
theorem record?_object {closed : Bool} {fields : List String} {members : List (String × Json)}
    {values : List (Option Json)} (distinct : fields.Nodup) (named : members.map Prod.fst = fields)
    (valued : members.map (fun member => some member.2) = values) :
    (object members).record? closed fields = some values := by
  subst named valued
  have known : ¬ (closed ∧ members.any fun member => member.1 ∉ members.map Prod.fst) := by
    simp only [List.any_eq_true, decide_eq_true_eq, not_and, not_exists]
    exact fun _ member present unknown => unknown (List.mem_map_of_mem present)
  have each : List.Forall₂ (fun key value => field? members key = some value) (members.map Prod.fst)
      (members.map fun member => some member.2) := by
    rw [List.forall₂_map_left_iff, List.forall₂_map_right_iff, List.forall₂_same]
    intro member present
    rw [field?, valuesOf_of_mem distinct present]
  rw [record?, if_neg known, mapM_of_forall₂ each]

/-- A record that starts with its tag. -/
theorem tagged?_object {tag : Json} {members : List (String × Json)} (fields : List String)
    (untagged : tagKey ∉ fields) (named : members.map Prod.fst = fields) :
    tagged? (object (("type", tag) :: members)) = some (tag, object members) := by
  subst named
  have others (member : String × Json) (present : member ∈ members) : ¬ member.1 = tagKey :=
    fun same => untagged (same ▸ List.mem_map_of_mem present)
  have none : members.filter (fun member => member.1 = tagKey) = [] :=
    List.filter_eq_nil_iff.mpr fun member present => by simpa using others member present
  have all : members.filter (fun member => member.1 ≠ tagKey) = members :=
    List.filter_eq_self.mpr fun member present => by simpa using others member present
  rw [tagged?, valuesOf, List.filter_cons_of_pos (by rfl),
    List.filter_cons_of_neg (by simp [tagKey]), none, all]
  rfl

end Json

namespace Archive.Compression

/-- Any setting is read back, if its level is a number of 32 bits. -/
theorem ofJson?_toJson {setting : Compression}
    (level : ∀ level, setting = zstd level → Text.isInt32 level = true) :
    ofJson? setting.toJson = some setting := by
  cases setting with
  | none => rfl
  | zstd value =>
    have tagged : (zstd value).toJson.tagged? =
        some (.string "zstd", .object [("level", .integer value)]) :=
      Json.tagged?_object ["level"] (by decide) rfl
    have record : (Json.object [("level", .integer value)]).record? false ["level"] =
        some [some (.integer value)] :=
      Json.record?_object (by decide) rfl rfl
    have fits : levelOfJson? (.integer value) = some value := if_pos (level value rfl)
    simp only [ofJson?, tagged, record, fits, Option.bind_eq_bind, Option.bind_some,
      Option.map_some]

end Archive.Compression

namespace Config

/-- A setup that can be written: the level is a number of 32 bits, and the output directory is
UTF-8. -/
structure Textual (config : Config) : Prop where
  level : ∀ level, config.compression = .zstd level → Text.isInt32 level = true
  directory : ∀ location, config.outputDirectory = some location → Bytes.ofString location.display =
    location

theorem ofJson?_toJson {config : Config} (textual : config.Textual) :
    ofJson? config.toJson = some config := by
  obtain ⟨compression, directory⟩ := config
  have setting : Archive.Compression.ofJson? compression.toJson = some compression :=
    Archive.Compression.ofJson?_toJson textual.level
  have record (directory : Json) :
      (Json.object [("compression", compression.toJson), ("output_dir", directory)]).record? true
          ["compression", "output_dir"] = some [some compression.toJson, some directory] :=
    Json.record?_object (by decide) rfl rfl
  cases directory with
  | none =>
    simp only [ofJson?, toJson, record, setting, directoryOfJson?, Option.bind_eq_bind,
      Option.bind_some]
  | some location =>
    have location := textual.directory location rfl
    simp only [ofJson?, toJson, record, setting, directoryOfJson?, location, Option.bind_eq_bind,
      Option.bind_some]

theorem Textual.fits_toJson {config : Config} (textual : config.Textual) : config.toJson.Fits := by
  have setting : config.compression.toJson.Fits := by
    cases same : config.compression with
    | none => exact ⟨trivial, trivial⟩
    | zstd level =>
      have fits := textual.level level same
      simp only [Text.isInt32, Bool.and_eq_true, decide_eq_true_eq] at fits
      exact ⟨trivial, ⟨by omega, by omega⟩, trivial⟩
  refine ⟨setting, ?_, trivial⟩
  cases config.outputDirectory <;> exact trivial

end Config

namespace ManifestNode

/-- The only field of a node. -/
theorem textOfJson?_object (field text : String) :
    textOfJson? field (.object [(field, .string text)]) = some text := by
  have record : (Json.object [(field, .string text)]).record? false [field] =
      some [some (.string text)] :=
    Json.record?_object (by simp) rfl rfl
  rw [textOfJson?, record]
  rfl

/-- A kind of node is told by its tag. -/
theorem tagOfJson?_string {tag : String} (known : tag ∈ tags) (nested : Bool) :
    tagOfJson? nested (.string tag) = some tag :=
  if_pos known

/-- A node with a single text is told by its tag from what it holds. -/
theorem tagged?_leaf (tag field text : String) (other : Json.tagKey ∉ [field]) :
    (Json.object [("type", .string tag), (field, .string text)]).tagged? =
      some (.string tag, .object [(field, .string text)]) :=
  Json.tagged?_object [field] other rfl

def container (name : String) (children : List ManifestNode) : Json :=
  .object [("name", .string name), ("children", .array (toJsonEach children))]

theorem tagged?_container (tag name : String) (children : List ManifestNode) :
    (Json.object
      [("type", .string tag), ("name", .string name),
        ("children", .array (toJsonEach children))]).tagged? =
      some (.string tag, container name children) :=
  Json.tagged?_object ["name", "children"] (by decide) rfl

theorem record?_container (name : String) (children : List ManifestNode) :
    (container name children).record? false ["name", "children"] =
      some [some (.string name), some (.array (toJsonEach children))] :=
  Json.record?_object (by decide) rfl rfl

/-- The nodes in a container are two containers further in. -/
theorem heightEach_lt {tag name : String} {children : List ManifestNode} {depth : Nat}
    (deep : (Json.object
      [("type", .string tag), ("name", .string name),
        ("children", .array (toJsonEach children))]).height ≤
        depth + 1) : Json.heightEach (toJsonEach children) < depth := by
  simp only [Json.height, Json.heightMembers] at deep
  omega

mutual

/-- A node is read back, if nodes are read as deeply as it is nested. -/
theorem ofJson?_toJson (node : ManifestNode) (nested : Bool) {depth : Nat}
    (deep : node.toJson.height ≤ depth) : ofJson? depth nested node.toJson = some node := by
  cases depth with
  | zero => cases node <;> cases deep
  | succ depth =>
    cases node with
    | file path =>
      have tag := @tagOfJson?_string "file" (by decide) nested
      simp only [toJson, ofJson?, tagged?_leaf "file" "path" path (by decide), tag,
        textOfJson?_object, Option.bind_eq_bind, Option.bind_some, Option.map_some]
    | directory name children =>
      have tag := @tagOfJson?_string "dir" (by decide) nested
      have each := mapM_toJsonEach children true (Nat.le_of_lt (heightEach_lt deep))
      simp [toJson, ofJson?, tagged?_container, tag, record?_container, Json.string?,
        Json.array?, each]
    | archive name children =>
      have tag := @tagOfJson?_string "archive" (by decide) nested
      have each := mapM_toJsonEach children true (Nat.le_of_lt (heightEach_lt deep))
      simp [toJson, ofJson?, tagged?_container, tag, record?_container, Json.string?,
        Json.array?, each]
    | artifact name =>
      have tag := @tagOfJson?_string "artifact" (by decide) nested
      simp only [toJson, ofJson?, tagged?_leaf "artifact" "name" name (by decide), tag,
        textOfJson?_object, Option.bind_eq_bind, Option.bind_some, Option.map_some]
    | copy path =>
      have tag := @tagOfJson?_string "dir_copy" (by decide) nested
      simp only [toJson, ofJson?, tagged?_leaf "dir_copy" "path" path (by decide), tag,
        textOfJson?_object, Option.bind_eq_bind, Option.bind_some, Option.map_some]

theorem mapM_toJsonEach (nodes : List ManifestNode) (nested : Bool) {depth : Nat}
    (deep : Json.heightEach (toJsonEach nodes) ≤ depth) :
    (toJsonEach nodes).mapM (ofJson? depth nested) = some nodes := by
  cases nodes with
  | nil => rfl
  | cons node rest =>
    rw [toJsonEach, Json.heightEach, Nat.max_le] at deep
    rw [toJsonEach, List.mapM_cons, ofJson?_toJson node nested deep.1,
      mapM_toJsonEach rest nested deep.2]
    rfl

end

mutual

/-- No node has a number in it. -/
theorem fits_toJson (node : ManifestNode) : node.toJson.Fits := by
  cases node with
  | file | artifact | copy => exact ⟨trivial, trivial, trivial⟩
  | directory name children => exact ⟨trivial, trivial, fitsEach_toJsonEach children, trivial⟩
  | archive name children => exact ⟨trivial, trivial, fitsEach_toJsonEach children, trivial⟩

theorem fitsEach_toJsonEach (nodes : List ManifestNode) : Json.FitsEach (toJsonEach nodes) := by
  cases nodes with
  | nil => exact trivial
  | cons node rest => exact ⟨fits_toJson node, fitsEach_toJsonEach rest⟩

end

end ManifestNode

namespace Manifest

/-- The members of the JSON form that hold the nodes of artifacts. -/
def artifactsToJson (artifacts : List (String × List ManifestNode)) : List (String × Json) :=
  artifacts.map fun (name, nodes) => (name, .array (ManifestNode.toJsonEach nodes))

theorem toJson_eq (manifest : Manifest) :
    manifest.toJson = .object
      [("config", manifest.config.toJson),
        ("artifacts", .object (artifactsToJson manifest.artifacts.entries))] :=
  rfl

/-- Artifacts are read back one by one. -/
theorem mapM_artifactsToJson {artifacts : List (String × List ManifestNode)}
    (deep : Json.heightMembers (artifactsToJson artifacts) ≤ Json.Reading.maxDepth) :
    (artifactsToJson artifacts).mapM (fun (name, json) => do some (name, ← nodesOfJson? json)) =
      some artifacts := by
  induction artifacts with
  | nil => rfl
  | cons artifact rest ih =>
    obtain ⟨name, nodes⟩ := artifact
    obtain ⟨first, later⟩ := Nat.max_le.mp deep
    have nested : Json.heightEach (ManifestNode.toJsonEach nodes) ≤ Json.Reading.maxDepth + 1 := by
      rw [Json.height] at first
      omega
    have read : nodesOfJson? (.array (ManifestNode.toJsonEach nodes)) = some nodes :=
      ManifestNode.mapM_toJsonEach nodes false nested
    have others := ih later
    rw [artifactsToJson] at others ⊢
    rw [List.map_cons, List.mapM_cons, others]
    simp [read]

theorem fitsMembers_artifactsToJson (artifacts : List (String × List ManifestNode)) :
    Json.FitsMembers (artifactsToJson artifacts) := by
  induction artifacts with
  | nil => exact trivial
  | cons artifact rest ih => exact ⟨ManifestNode.fitsEach_toJsonEach artifact.2, ih⟩

variable {manifest : Manifest}

theorem fits_toJson (textual : manifest.config.Textual) : manifest.toJson.Fits :=
  ⟨textual.fits_toJson, fitsMembers_artifactsToJson _, trivial⟩

theorem ofJson?_toJson (textual : manifest.config.Textual)
    (deep : manifest.toJson.height ≤ Json.Reading.maxDepth) :
    ofJson? manifest.toJson = some manifest := by
  obtain ⟨config, artifacts⟩ := manifest
  have setup : Config.ofJson? config.toJson = some config := Config.ofJson?_toJson textual
  have record : (Manifest.toJson ⟨config, artifacts⟩).record? true ["config", "artifacts"] =
      some [some config.toJson, some (.object (artifactsToJson artifacts.entries))] :=
    Json.record?_object (by decide) rfl rfl
  have read : artifactsOfJson? (.object (artifactsToJson artifacts.entries)) = some artifacts := by
    have shallow : Json.heightMembers (artifactsToJson artifacts.entries) ≤
        Json.Reading.maxDepth := by
      rw [toJson_eq] at deep
      simp only [Json.height, Json.heightMembers] at deep
      omega
    rw [artifactsOfJson?, mapM_artifactsToJson shallow]
    simp [NameMap.ofList_entries]
  simp only [ofJson?, record, setup, read, Option.bind_eq_bind, Option.bind_some]

/-- A manifest is read back from its text if it is not nested more deeply than texts are read,
whatever writes and reads the texts of values. -/
theorem read_back {format : Json.Format} (lawful : format.Lawful)
    (textual : manifest.config.Textual) :
    ofText? (manifest.text format) format =
      if manifest.toJson.height ≤ Json.Reading.maxDepth then some manifest else none := by
  have fits := fits_toJson textual
  rw [ofText?, text]
  split
  · next low =>
    rw [lawful.within _ fits low]
    exact ofJson?_toJson textual low
  · next high =>
    rw [lawful.beyond _ fits (Nat.lt_of_not_le high)]
    rfl

/-- A manifest with every kind of node, and with characters in its texts that are escaped in JSON or
have several bytes. -/
def various : Manifest where
  config := ⟨.zstd (-7), some (Bytes.ofString "out/é")⟩
  artifacts := NameMap.empty.insert "say \"hi\"\n"
    [.directory "a/b" [.archive "\\" [.file "\t\x01"], .copy "ü"], .artifact "",
      .directory "empty" []]

theorem read_back_various : ofText? various.text = some various := by
  have textual : various.config.Textual := by
    refine ⟨fun level same => ?_, fun location same => ?_⟩
    · cases same
      decide
    · cases same
      exact congrArg Bytes.ofString (Text.Utf8.lossy_ofString _)
  have deep : various.toJson.height ≤ Json.Reading.maxDepth := by decide
  rw [read_back Json.Format.compact_lawful textual, if_pos deep]

end Manifest

end Depot

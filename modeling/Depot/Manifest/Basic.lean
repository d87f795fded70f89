import Depot.Config
import Depot.NameMap

set_option autoImplicit false

namespace Depot

/-- A part of a plan as a manifest gives it, where any text may stand for a name or a path. -/
inductive ManifestNode where
  | file (path : String)
  | directory (name : String) (children : List ManifestNode)
  | archive (name : String) (children : List ManifestNode)
  | artifact (name : String)
  | copy (path : String)

namespace ManifestNode

def tags : List String := ["file", "dir", "archive", "artifact", "dir_copy"]

mutual

def toJson : ManifestNode → Json
  | file path => .object [("type", .string "file"), ("path", .string path)]
  | directory name children =>
    .object [("type", .string "dir"), ("name", .string name),
      ("children", .array (toJsonEach children))]
  | archive name children =>
    .object
      [("type", .string "archive"), ("name", .string name),
        ("children", .array (toJsonEach children))]
  | artifact name => .object [("type", .string "artifact"), ("name", .string name)]
  | copy path => .object [("type", .string "dir_copy"), ("path", .string path)]

def toJsonEach : List ManifestNode → List Json
  | [] => []
  | node :: rest => toJson node :: toJsonEach rest

end

/-- The kind of node that a tag tells. Inside of other nodes the place in the list of all tags does
as well. -/
def tagOfJson? (nested : Bool) : Json → Option String
  | .string tag => if tag ∈ tags then some tag else none
  | .integer place => if nested ∧ 0 ≤ place then tags[place.toNat]? else none
  | _ => none

def textOfJson? (field : String) (rest : Json) : Option String := do
  match ← rest.record? false [field] with
  | [some value] => value.string?
  | _ => none

/-- Reads a node from its JSON form, down to the given depth. -/
def ofJson? : (depth : Nat) → (nested : Bool) → Json → Option ManifestNode
  | 0, _, _ => none
  | depth + 1, nested, json => do
    let (tag, rest) ← json.tagged?
    match ← tagOfJson? nested tag with
    | "file" => (textOfJson? "path" rest).map file
    | "dir_copy" => (textOfJson? "path" rest).map copy
    | "artifact" => (textOfJson? "name" rest).map artifact
    | tag =>
      match ← rest.record? false ["name", "children"] with
      | [some name, children] =>
        let name ← name.string?
        let children ←
          match children with
          | some children => (← children.array?).mapM (ofJson? depth true)
          | none => some []
        some (if tag = "dir" then directory name children else archive name children)
      | _ => none

end ManifestNode

/-- A manifest: a setup, and the nodes of each artifact. -/
structure Manifest where
  config : Config
  artifacts : NameMap (List ManifestNode)

namespace Manifest

def toJson (manifest : Manifest) : Json :=
  let artifacts := manifest.artifacts.entries.map fun (name, nodes) =>
    (name, Json.array (ManifestNode.toJsonEach nodes))
  .object [("config", manifest.config.toJson), ("artifacts", .object artifacts)]

def text (manifest : Manifest) (format : Json.Format := .compact) : String :=
  format.text manifest.toJson

def nodesOfJson? (json : Json) : Option (List ManifestNode) := do
  (← json.array?).mapM (ManifestNode.ofJson? (Json.Reading.maxDepth + 1) false)

/-- Reads the artifacts. Of those with the same name the last one counts. -/
def artifactsOfJson? : Json → Option (NameMap (List ManifestNode))
  | .object members => do
    let artifacts ← members.mapM fun (name, json) => do some (name, ← nodesOfJson? json)
    some (.ofList artifacts)
  | _ => none

def ofJson? (json : Json) : Option Manifest := do
  match ← json.record? true ["config", "artifacts"] with
  | [config, some artifacts] =>
    let config ←
      match config with
      | some config => Config.ofJson? config
      | none => some .standard
    some { config, artifacts := ← artifactsOfJson? artifacts }
  | _ => none

def ofText? (text : String) (format : Json.Format := .compact) : Option Manifest := do
  ofJson? (← format.ofText? text)

end Manifest

end Depot

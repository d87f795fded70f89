import Depot.Archive.Compression
import Depot.Disk.Location
import Depot.Json.Reader
import Depot.Json.Record

set_option autoImplicit false

namespace Depot

namespace Archive.Compression

def toJson : Compression → Json
  | none => .object [("type", .string "none")]
  | zstd level => .object [("type", .string "zstd"), ("level", .integer level)]

def levelOfJson? : Json → Option Int
  | .integer value => if Text.isInt32 value then some value else Option.none
  | _ => Option.none

/-- Reads a setting from its JSON form. What comes with `none` does not matter. -/
def ofJson? (json : Json) : Option Compression := do
  let (tag, rest) ← json.tagged?
  match tag, rest with
  | .string "none", .object _ => some none
  | .string "none", .array [] => some none
  | .string "zstd", _ =>
    match ← rest.record? false ["level"] with
    | [some level] => (levelOfJson? level).map zstd
    | _ => some (zstd defaultLevel)
  | _, _ => Option.none

def ofJsonText? (text : String) : Option Compression := do
  ofJson? (← Json.ofText? text)

end Archive.Compression

/-- What a packager is set up with. Artifacts are published in directories of their names inside
`outputDirectory`, if there is one. -/
structure Config where
  compression : Archive.Compression
  outputDirectory : Option Disk.Location
deriving DecidableEq

namespace Config

/-- Neither compression nor publication. -/
def standard : Config := ⟨.none, none⟩

def toJson (config : Config) : Json :=
  let directory :=
    match config.outputDirectory with
    | some directory => .string directory.display
    | none => .null
  .object [("compression", config.compression.toJson), ("output_dir", directory)]

def directoryOfJson? : Option Json → Option (Option Disk.Location)
  | none | some .null => some none
  | some (.string text) => some (some (Bytes.ofString text))
  | some _ => none

/-- Reads a setup from its JSON form. What is missing is as in the standard setup. -/
def ofJson? (json : Json) : Option Config := do
  match ← json.record? true ["compression", "output_dir"] with
  | [compression, directory] =>
    let compression ←
      match compression with
      | some compression => Archive.Compression.ofJson? compression
      | none => some standard.compression
    some { compression, outputDirectory := ← directoryOfJson? directory }
  | _ => none

def ofJsonText? (text : String) : Option Config := do
  ofJson? (← Json.ofText? text)

end Config

end Depot

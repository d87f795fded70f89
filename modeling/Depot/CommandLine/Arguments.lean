import Depot.Archive.Compression
import Depot.CommandLine.Usage
import Depot.Disk.Location

set_option autoImplicit false

namespace Depot.CommandLine

/-- How much is logged. -/
inductive LogLevel where
  | error
  | warn
  | info
  | debug
  | trace
deriving Repr, DecidableEq

namespace LogLevel

def display : LogLevel → String
  | error => "ERROR"
  | warn => "WARN"
  | info => "INFO"
  | debug => "DEBUG"
  | trace => "TRACE"

def all : List LogLevel := [error, warn, info, debug, trace]

/-- Reads a level: its name, where case does not matter, or its place among all, counted from one.
-/
def ofString? (text : String) : Option LogLevel :=
  match Text.nat? text.toList with
  | some 0 => none
  | some (place + 1) => all[place]?
  | none => all.find? fun level => level.display = text.map Char.toUpper

end LogLevel

/-- What the program is asked to do. -/
inductive Command where
  /-- To build all artifacts of a manifest. -/
  | build (manifest source out : Disk.Location) (compression : Option Archive.Compression)
  /-- To list the members of an archive. -/
  | list (archive : Disk.Location)

/-- All that a command line says. -/
structure Arguments where
  logLevel : LogLevel
  json : Bool
  command : Command

def locationParameter (name : String) : Parameter :=
  { name, purpose := .value fun text => if text = "" then some .invalidValue else none }

/-- A parameter for something that is read from its text. -/
def parsedParameter {α : Type} (name : String) (ofString? : String → Option α) : Parameter :=
  { name
    purpose := .value fun text => if (ofString? text).isSome then none else some .valueValidation }

def program : Description where
  parameters := [parsedParameter "log-level" LogLevel.ofString?, ⟨"json", .switch⟩]
  positional := none
  commands := ["build", "ls", "help"]

def buildCommand : Description where
  parameters :=
    [locationParameter "manifest", locationParameter "source", locationParameter "out",
      parsedParameter "compression" Archive.Compression.ofString?]
  positional := none
  commands := []

/-- The variables of the environment that stand in for parameters of `build`. -/
def buildVariables : List (String × String) :=
  [("out", "STAGE_OUTPUT_DIR"), ("compression", "STAGE_COMPRESSION")]

def listCommand : Description where
  parameters := []
  positional := some (locationParameter "archive")
  commands := []

def readCommand (description : Description) (environment substitutes : List (String × String))
    (words : List String) : Except UsageFault Usage := do
  let (usage, _) ← Usage.start.read description words
  (← usage.settle).addEnvironment description environment substitutes

def requiredLocation (usage : Usage) (name : String) : Except UsageFault Disk.Location :=
  match usage.value? name with
  | some text => .ok (Bytes.ofString text)
  | none => .error .missingRequiredArgument

/-- What words after `help` lead to: help on at most one command. -/
def helpFault : List String → UsageFault
  | [] => .displayHelp
  | [name] => if name ∈ program.commands then .displayHelp else .invalidSubcommand
  | _ => .invalidSubcommand

def Command.ofWords (environment : List (String × String)) (name : String) (words : List String) :
    Except UsageFault Command :=
  match name with
  | "build" => do
    let usage ← readCommand buildCommand environment buildVariables words
    let manifest ← requiredLocation usage "manifest"
    let source ← requiredLocation usage "source"
    let out ← requiredLocation usage "out"
    let compression := (usage.value? "compression").bind Archive.Compression.ofString?
    return .build manifest source out compression
  | "ls" => do
    let usage ← readCommand listCommand environment [] words
    return .list (← requiredLocation usage "archive")
  | _ => throw (helpFault words)

def Arguments.ofWords (environment : List (String × String)) (words : List String) :
    Except UsageFault Arguments := do
  let (usage, rest) ← Usage.start.read program words
  match rest with
  | some (name, words) =>
    let command ← Command.ofWords environment name words
    let usage ← usage.settle
    let logLevel := ((usage.value? "log-level").bind LogLevel.ofString?).getD .info
    return { logLevel, json := usage.isGiven "json", command }
  | none =>
    let usage ← usage.settle
    if usage.given.isEmpty then throw .displayHelpOnMissingArgumentOrSubcommand
    throw .missingSubcommand

end Depot.CommandLine

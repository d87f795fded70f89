set_option autoImplicit false

/-
Reading command lines against a description of what a command takes: named parameters with or
without a value, at most one value without a name, and commands inside the command. The value of a
parameter is looked at only when the next parameter or the end is reached, so that a word which
nothing can be made of is reported before it.
-/

namespace Depot.CommandLine

/-- Why a command line cannot be used. -/
inductive UsageFault where
  | displayHelp
  | displayHelpOnMissingArgumentOrSubcommand
  | missingSubcommand
  | missingRequiredArgument
  | unknownArgument
  | invalidSubcommand
  | invalidValue
  | valueValidation
  | argumentConflict
  | tooManyValues
deriving Repr, DecidableEq

def UsageFault.code : UsageFault → String
  | displayHelp => "DisplayHelp"
  | displayHelpOnMissingArgumentOrSubcommand => "DisplayHelpOnMissingArgumentOrSubcommand"
  | missingSubcommand => "MissingSubcommand"
  | missingRequiredArgument => "MissingRequiredArgument"
  | unknownArgument => "UnknownArgument"
  | invalidSubcommand => "InvalidSubcommand"
  | invalidValue => "InvalidValue"
  | valueValidation => "ValueValidation"
  | argumentConflict => "ArgumentConflict"
  | tooManyValues => "TooManyValues"

/-- What a parameter is for. -/
inductive Purpose where
  | help
  | switch
  /-- It takes a value, about which there may be a complaint. -/
  | value (complaint? : String → Option UsageFault)

/-- A parameter. -/
structure Parameter where
  name : String
  purpose : Purpose

/-- What a command takes. -/
structure Description where
  parameters : List Parameter
  /-- The parameter whose value is given without its name. -/
  positional : Option Parameter
  commands : List String

/-- The parameter that every command has, also under its first letter. -/
def helpParameter : Parameter := ⟨"help", .help⟩

def Description.parameter? (description : Description) (name : String) : Option Parameter :=
  (helpParameter :: description.parameters).find? fun parameter => parameter.name = name

/-- A parameter whose value has not been looked at, or is still to come. -/
structure Pending where
  parameter : Parameter
  value? : Option String

/-- What has been read of a command line. -/
structure Usage where
  /-- The parameters given so far, with their values. -/
  given : List (String × String)
  pending? : Option Pending
  /-- Whether the value without a name has been given. -/
  filled : Bool
  /-- Whether all words that follow are values. -/
  literal : Bool

namespace Usage

def start : Usage := ⟨[], none, false, false⟩

def value? (usage : Usage) (name : String) : Option String :=
  usage.given.lookup name

def isGiven (usage : Usage) (name : String) : Bool :=
  (usage.value? name).isSome

/-- Takes a parameter with its value. It may be given only once. -/
def accept (usage : Usage) (parameter : Parameter) (value? : Option String) :
    Except UsageFault Usage := do
  match parameter.purpose, value? with
  | .help, _ => throw .displayHelp
  | .value _, none => throw .invalidValue
  | purpose, value? =>
    if usage.isGiven parameter.name then throw .argumentConflict
    let value := value?.getD "true"
    if let .value complaint? := purpose then
      if let some fault := complaint? value then throw fault
    return { usage with given := usage.given ++ [(parameter.name, value)] }

def settle (usage : Usage) : Except UsageFault Usage :=
  match usage.pending? with
  | none => .ok usage
  | some pending => { usage with pending? := none }.accept pending.parameter pending.value?

/-- Whether the next word is a value if it can be one. -/
def isAwaiting (usage : Usage) : Bool :=
  usage.pending?.any fun pending => pending.value?.isNone

/-- A word that starts with two dashes, without them and cut at its first equals sign. -/
def long? (word : String) : Option (String × Option String) :=
  match word.toList with
  | '-' :: '-' :: rest =>
    let name := String.ofList (rest.takeWhile (· ≠ '='))
    match rest.dropWhile (· ≠ '=') with
    | [] => some (name, none)
    | _ :: value => some (name, some (String.ofList value))
  | _ => none

def short? (word : String) : Option Char :=
  match word.toList with
  | '-' :: letter :: _ => some letter
  | _ => none

/-- Reads the name of a parameter, which may have a value attached. -/
def readLong (description : Description) (usage : Usage) (name : String) (value? : Option String) :
    Except UsageFault Usage :=
  match description.parameter? name with
  | none => .error .unknownArgument
  | some parameter =>
    match parameter.purpose, value? with
    | .value _, none => do
      let usage ← usage.settle
      return { usage with pending? := some { parameter, value? := none } }
    | .value _, some value => do (← usage.settle).accept parameter (some value)
    | _, some _ => .error .tooManyValues
    | _, none => do (← usage.settle).accept parameter none

/-- Reads a word that is neither the name of a parameter nor the value of one. -/
def readPlain (description : Description) (usage : Usage) (word : String) :
    Except UsageFault Usage :=
  match description.positional, usage.filled with
  | some parameter, false => do
    let usage ← usage.settle
    return { usage with pending? := some { parameter, value? := some word }, filled := true }
  | _, _ =>
    if description.commands.isEmpty ∨ usage.literal ∧ word ∈ description.commands then
      .error .unknownArgument
    else .error .invalidSubcommand

def readWord (description : Description) (usage : Usage) (word : String) :
    Except UsageFault Usage :=
  if usage.literal then readPlain description usage word
  else if word = "--" then .ok { usage with literal := true }
  else
    match long? word, short? word, usage.pending? with
    | some (name, value?), _, _ => readLong description usage name value?
    | none, some 'h', _ => do (← usage.settle).accept helpParameter none
    | none, some _, _ => .error .unknownArgument
    | none, none, some { parameter, value? := none } =>
      .ok { usage with pending? := some { parameter, value? := some word } }
    | none, none, _ => readPlain description usage word

/-- Reads words up to the end, or up to the name of a command inside the command; the words after it
are left. -/
def read (description : Description) (usage : Usage) :
    List String → Except UsageFault (Usage × Option (String × List String))
  | [] => .ok (usage, none)
  | word :: rest =>
    if !usage.literal ∧ !usage.isAwaiting ∧ word ∈ description.commands then
      .ok (usage, some (word, rest))
    else do read description (← readWord description usage word) rest

/-- Takes the values of parameters that were not given from the environment. -/
def addEnvironment (description : Description) (environment : List (String × String))
    (usage : Usage) :
    (substitutes : List (String × String)) → Except UsageFault Usage
  | [] => .ok usage
  | (name, environmentName) :: rest => do
    let usage ←
      match usage.isGiven name, description.parameter? name, environment.lookup environmentName with
      | false, some parameter, some value => usage.accept parameter (some value)
      | _, _, _ => .ok usage
    addEnvironment description environment usage rest

end Usage

end Depot.CommandLine

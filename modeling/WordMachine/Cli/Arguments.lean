import WordMachine.Config
import WordMachine.Source.Numeral
import WordMachine.Text.Blank

/-! Command-line arguments. -/
namespace WordMachine.Cli

structure BuildArgs where
  input : String
  output? : Option String
  verbose : Bool
  json : Bool
  deriving DecidableEq, Repr

structure RunArgs where
  input : String
  inputs : List UInt16
  config : Config
  json : Bool
  deriving DecidableEq

inductive Command
  | build (args : BuildArgs)
  | run (args : RunArgs)
  deriving DecidableEq

inductive Invocation
  | help
  | command (c : Command)
  deriving DecidableEq

inductive UsageError
  | missingCommand
  | unknownCommand (name : String)
  /-- A command was asked for its help, which is no way to run it. -/
  | helpRequested
  | missingValue (option : String)
  | invalidValue (option text : String)
  | invalidInput (text : String)
  | unknownOption (option : String)
  | multipleInputs
  | missingInput
  | config (error : ConfigError)
  deriving DecidableEq, Repr

def UsageError.message : UsageError → String
  | missingCommand => "missing command"
  | unknownCommand name => "unknown command: " ++ name
  | helpRequested => "help requested"
  | missingValue option => "missing value for " ++ option
  | invalidValue option text => "invalid value for " ++ option ++ ": " ++ text
  | invalidInput text => "invalid input value: " ++ text
  | unknownOption option => "unknown option: " ++ option
  | multipleInputs => "multiple input paths provided"
  | missingInput => "missing input path"
  | config error => error.message

/-- A count that fits 64 bits, in decimal digits with at most a plus sign before them. -/
def count? (text : List Char) : Option Nat :=
  let digits := match text with
    | '+' :: digits => digits
    | digits => digits
  (Digits.value? 10 digits).filter (· < UInt64.size)

def inputValue (text : List Char) : Except UsageError UInt16 :=
  match Source.Numeral.parse? text with
  | some value => .ok value
  | none => .error (.invalidInput (String.ofList text))

/-- The values between commas, blanks around them ignored. -/
def inputValues (text : String) : Except UsageError (List UInt16) :=
  (text.toList.splitOn ',').mapM fun item => inputValue (Text.trim item)

def countValue (option text : String) : Except UsageError Nat :=
  match count? text.toList with
  | some n => .ok n
  | none => .error (.invalidValue option text)

/-- The one argument that is no option names the input. -/
def setInput (input? : Option String) (arg : String) : Except UsageError String :=
  if arg.toList.head? = some '-' then .error (.unknownOption arg)
  else if input?.isSome then .error .multipleInputs
  else .ok arg

def isHelp (arg : String) : Bool := arg == "--help" || arg == "-h"

structure BuildOptions where
  input? : Option String := none
  output? : Option String := none
  verbose : Bool := false
  json : Bool := false

/-- Reads the arguments front to back; an option takes the argument after it whatever that is. -/
def BuildOptions.parse (o : BuildOptions) : List String → Except UsageError BuildOptions
  | [] => .ok o
  | arg :: rest =>
    if isHelp arg then .error .helpRequested
    else if arg == "--verbose" || arg == "-v" then { o with verbose := true }.parse rest
    else if arg == "--json" then { o with json := true }.parse rest
    else if arg == "-o" || arg == "--output" then
      match rest with
      | [] => .error (.missingValue "-o")
      | value :: rest => { o with output? := some value }.parse rest
    else
      match setInput o.input? arg with
      | .error e => .error e
      | .ok input => { o with input? := some input }.parse rest

def BuildArgs.parse (args : List String) : Except UsageError BuildArgs := do
  let o ← BuildOptions.parse {} args
  match o.input? with
  | none => throw .missingInput
  | some input => return { input, output? := o.output?, verbose := o.verbose, json := o.json }

structure RunOptions where
  input? : Option String := none
  inputs : List UInt16 := []
  maxSteps : Nat := ({} : Config).maxSteps
  memoryWords : Nat := ({} : Config).memoryWords
  json : Bool := false

/-- An option of `run` that takes a value. -/
inductive RunOption
  | input | inputs | maxSteps | memoryWords
  deriving DecidableEq, Repr

namespace RunOption

def name : RunOption → String
  | input => "--input"
  | inputs => "--inputs"
  | maxSteps => "--max-steps"
  | memoryWords => "--memory-words"

def ofName? (arg : String) : Option RunOption :=
  [input, inputs, maxSteps, memoryWords].find? (·.name == arg)

/-- Console inputs add up; of a limit the last value counts. -/
def set (option : RunOption) (value : String) (o : RunOptions) : Except UsageError RunOptions :=
  match option with
  | input => (inputValue value.toList).map fun v => { o with inputs := o.inputs ++ [v] }
  | inputs => (inputValues value).map fun vs => { o with inputs := o.inputs ++ vs }
  | maxSteps => (countValue option.name value).map fun n => { o with maxSteps := n }
  | memoryWords => (countValue option.name value).map fun n => { o with memoryWords := n }

end RunOption

def RunOptions.parse (o : RunOptions) : List String → Except UsageError RunOptions
  | [] => .ok o
  | arg :: rest =>
    if isHelp arg then .error .helpRequested
    else if arg == "--json" then { o with json := true }.parse rest
    else
      match RunOption.ofName? arg with
      | some option =>
        match rest with
        | [] => .error (.missingValue option.name)
        | value :: rest =>
          match option.set value o with
          | .error e => .error e
          | .ok o => o.parse rest
      | none =>
        match setInput o.input? arg with
        | .error e => .error e
        | .ok input => { o with input? := some input }.parse rest

def RunArgs.parse (args : List String) : Except UsageError RunArgs := do
  let o ← RunOptions.parse {} args
  match o.input? with
  | none => throw .missingInput
  | some input =>
    match Config.ofLimits o.maxSteps o.memoryWords with
    | .error e => throw (.config e)
    | .ok config => return { input, inputs := o.inputs, config, json := o.json }

def Invocation.parse : List String → Except UsageError Invocation
  | [] => .error .missingCommand
  | name :: args =>
    if isHelp name then .ok .help
    else if name == "build" then (BuildArgs.parse args).map fun a => .command (.build a)
    else if name == "run" then (RunArgs.parse args).map fun a => .command (.run a)
    else .error (.unknownCommand name)

end WordMachine.Cli

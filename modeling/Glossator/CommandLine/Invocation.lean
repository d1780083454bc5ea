import Glossator.CommandLine.Arguments

/-!
# Invocations

What the program is asked to do, as read from its arguments.
-/

set_option autoImplicit false

namespace Glossator.CommandLine

/-- How reports are shown. -/
inductive Format where
  | json
  | text
deriving DecidableEq, Repr

/-- The format of a name. -/
def Format.ofName? (name : Text) : Option Format :=
  if name = "json".toList then some .json
  else if name = "text".toList then some .text
  else none

/-- What the program is to do. -/
inductive Command where
  /-- Report the functions below some paths. -/
  | extract (paths : List Text) (format : Format)
  /-- Comment the function of a prompt, or show the request for it. -/
  | comment (file : Text) (isDryRun : Bool)
  /-- List the languages. -/
  | languages
deriving DecidableEq, Repr

/-- A command and the options that hold for any of them. -/
structure Invocation where
  config : Option Text
  isVerbose : Bool
  command : Command
deriving DecidableEq, Repr

/-- A path must not be empty. -/
def isPath (t : Text) : Bool := !t.isEmpty

/-- The option that every command has. -/
def helpOption : Opt := ⟨"help", some 'h', .stop .help⟩

/-- The arguments before the command. -/
def mainGrammar : Grammar where
  options := [⟨"config", some 'c', .value isPath⟩, ⟨"verbose", some 'v', .switch⟩, helpOption,
    ⟨"version", some 'V', .stop .version⟩]
  commands := ["extract", "comment", "languages", "help"]

/-- The arguments of `extract`. -/
def extractGrammar : Grammar where
  options := [⟨"format", some 'f', .value fun t => (Format.ofName? t).isSome⟩, helpOption]
  operand := some ⟨"paths", true, isPath⟩

/-- The arguments of `comment`. -/
def commentGrammar : Grammar where
  options := [⟨"dry-run", none, .switch⟩, helpOption]
  operand := some ⟨"file", false, isPath⟩

/-- The arguments of `languages`. -/
def languagesGrammar : Grammar where
  options := [helpOption]

/-- The arguments of a command without commands of its own. -/
def leaf (g : Grammar) (args : List Text) : Except Refusal Draft := do
  let (d, _) ← g.read {} args
  d.settle g

/-- Help on a command, or on all of them. -/
def helpOn : List Text → Refusal
  | [] => .help
  | [name] => if mainGrammar.commands.any (·.toList = name) then .help else .unknownCommand
  | _ => .unknownCommand

/-- The command of a name with its arguments. -/
def readCommand (name : String) (args : List Text) : Except Refusal Command :=
  match name with
  | "extract" => do
    let d ← leaf extractGrammar args
    match d.values? "paths" with
    | some paths =>
      .ok (.extract paths
        ((((d.values? "format").bind List.head?).bind Format.ofName?).getD .json))
    | none => .error .missingArgument
  | "comment" => do
    let d ← leaf commentGrammar args
    match d.values? "file" with
    | some (file :: _) => .ok (.comment file (d.values? "dry-run").isSome)
    | _ => .error .missingArgument
  | "languages" => do
    let _ ← leaf languagesGrammar args
    .ok .languages
  | _ => .error (helpOn args)

/-- What the arguments of the program ask for. -/
def Invocation.read (args : List Text) : Except Refusal Invocation := do
  match ← mainGrammar.read {} args with
  | (d, some (name, args)) =>
    let command ← readCommand name args
    let d ← d.settle mainGrammar
    .ok ⟨(d.values? "config").bind List.head?, (d.values? "verbose").isSome, command⟩
  | (d, none) =>
    let d ← d.settle mainGrammar
    .error (if d.settled.isEmpty then .nothingGiven else .missingCommand)

end Glossator.CommandLine

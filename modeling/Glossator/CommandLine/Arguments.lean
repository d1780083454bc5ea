import Glossator.Text.Basic

/-!
# Arguments

Reading the arguments of a command by its grammar: options with a long name and perhaps a letter,
operands, and further commands. Letters may be joined after one hyphen, a value may be joined to its
option, and all that follows two hyphens is an operand. The first thing that does not fit decides
how the arguments are refused.
-/

set_option autoImplicit false

namespace Glossator.CommandLine

/-- Why arguments are not carried out. -/
inductive Refusal where
  /-- Help is asked for. -/
  | help
  /-- The version is asked for. -/
  | version
  /-- Nothing at all is asked for. -/
  | nothingGiven
  | missingCommand
  | unknownCommand
  | missingArgument
  | unknownArgument
  /-- A value is missing or not one of those allowed. -/
  | invalidValue
  /-- An option that may be given once is given again. -/
  | repeatedArgument
  /-- A value is given to an option that takes none. -/
  | needlessValue
deriving DecidableEq, Repr

/-- The exit code: showing what is asked for is no failure. -/
def Refusal.exitCode : Refusal → Nat
  | help | version => 0
  | _ => 2

/-- What an option does. -/
inductive Effect where
  /-- It ends the reading. -/
  | stop (r : Refusal)
  /-- It is on when it is given. -/
  | switch
  /-- It takes a value. -/
  | value (allows : Text → Bool)

/-- An option. -/
structure Opt where
  name : String
  letter : Option Char
  effect : Effect

/-- The operands of a command. -/
structure Operand where
  name : String
  isMany : Bool
  allows : Text → Bool

/-- What the arguments of a command may be. -/
structure Grammar where
  options : List Opt
  operand : Option Operand := none
  commands : List String := []

/-- What has been read: options and operands with their values, and the one whose values are still
being read. -/
structure Draft where
  settled : List (String × List Text) := []
  open? : Option (String × List Text) := none
  onlyOperands : Bool := false

namespace Grammar

/-- The option with a long name. -/
def named? (g : Grammar) (name : Text) : Option Opt := g.options.find? fun o => o.name.toList = name

/-- The option with a letter. -/
def lettered? (g : Grammar) (c : Char) : Option Opt := g.options.find? fun o => o.letter = some c

/-- The values that an option or operand allows. -/
def allows (g : Grammar) (name : String) (value : Text) : Bool :=
  match g.operand with
  | some operand => if operand.name = name then operand.allows value else inOption
  | none => inOption
where
  /-- The values that an option allows. -/
  inOption : Bool := match g.named? name.toList with
    | some ⟨_, _, .value allows⟩ => allows value
    | _ => true

/-- The name is that of operands that may be many. -/
def isMany (g : Grammar) (name : String) : Bool :=
  match g.operand with
  | some operand => operand.name = name && operand.isMany
  | none => false

end Grammar

namespace Draft

/-- The values of an option or operand that has been settled. -/
def values? (d : Draft) (name : String) : Option (List Text) := d.settled.lookup name

/-- Settles an option or operand with its values. -/
def settleAs (d : Draft) (g : Grammar) (name : String) (values : List Text) :
    Except Refusal Draft :=
  match d.values? name with
  | none =>
    if values.all (g.allows name) then .ok { d with settled := d.settled ++ [(name, values)] }
    else .error .invalidValue
  | some earlier =>
    if !g.isMany name then .error .repeatedArgument
    else if values.all (g.allows name) then
      .ok { d with settled := d.settled.map fun (n, vs) =>
        if n = name then (n, earlier ++ values) else (n, vs) }
    else .error .invalidValue

/-- Settles what is still open; a value must have been given. -/
def settle (d : Draft) (g : Grammar) : Except Refusal Draft :=
  match d.open? with
  | none => .ok d
  | some (_, []) => .error .invalidValue
  | some (name, values) => ({ d with open? := none }).settleAs g name values

/-- Takes in an option that has no value. -/
def takeBare (d : Draft) (g : Grammar) (o : Opt) : Except Refusal Draft := do
  let d ← d.settle g
  match o.effect with
  | .stop r => .error r
  | _ => d.settleAs g o.name []

/-- Takes in an option with its value, or with the value to follow. -/
def takeValued (d : Draft) (g : Grammar) (o : Opt) (value : Option Text) :
    Except Refusal Draft := do
  let d ← d.settle g
  match value with
  | some v => d.settleAs g o.name [v]
  | none => .ok { d with open? := some (o.name, []) }

/-- Takes in a long option, with the value joined to it. -/
def takeLong (d : Draft) (g : Grammar) (name : Text) (value : Option Text) : Except Refusal Draft :=
  match g.named? name with
  | none => .error .unknownArgument
  | some o =>
    match o.effect, value with
    | .value _, value => d.takeValued g o value
    | _, some _ => .error .needlessValue
    | _, none => d.takeBare g o

/-- Takes in options by their letters; one that takes a value takes all that follows it. -/
def takeLetters (g : Grammar) : Draft → Text → Except Refusal Draft
  | d, [] => .ok d
  | d, c :: rest =>
    match g.lettered? c with
    | none => .error .unknownArgument
    | some o =>
      match o.effect with
      | .value _ =>
        d.takeValued g o (match rest with
          | [] => none
          | '=' :: v => some v
          | v => some v)
      | _ => do takeLetters g (← d.takeBare g o) rest

/-- Takes in an operand. -/
def takeOperand (d : Draft) (g : Grammar) (value : Text) : Except Refusal Draft :=
  match g.operand with
  | none =>
    .error (if g.commands.isEmpty || (d.onlyOperands && g.commands.any (·.toList = value)) then
      .unknownArgument else .unknownCommand)
  | some operand =>
    match d.open? with
    | some (name, values) =>
      if name = operand.name then
        if operand.isMany then .ok { d with open? := some (name, values ++ [value]) }
        else .error .unknownArgument
      else start operand
    | none => start operand
where
  /-- Takes in the first operand, or the first one after an option. -/
  start (operand : Operand) : Except Refusal Draft := do
    if !operand.isMany && (d.values? operand.name).isSome then .error .unknownArgument
    else
      let d ← d.settle g
      .ok { d with open? := some (operand.name, [value]) }

/-- An option waits for its value. -/
def waits (d : Draft) : Bool := match d.open? with
  | some (_, []) => true
  | _ => false

/-- Takes in an argument that is no command. -/
def take (d : Draft) (g : Grammar) (arg : Text) : Except Refusal Draft :=
  if d.onlyOperands then d.takeOperand g arg
  else match arg with
    | ['-', '-'] => .ok { d with onlyOperands := true }
    | '-' :: '-' :: long =>
      let name := long.takeWhile (· ≠ '=')
      match long.dropWhile (· ≠ '=') with
      | _ :: value => d.takeLong g name (some value)
      | [] => d.takeLong g name none
    | '-' :: c :: letters => takeLetters g d (c :: letters)
    | arg =>
      match d.open? with
      | some (name, []) => .ok { d with open? := some (name, [arg]) }
      | _ => d.takeOperand g arg

end Draft

/-- Reads arguments up to a command, which is given with the arguments after it. -/
def Grammar.read (g : Grammar) :
    Draft → List Text → Except Refusal (Draft × Option (String × List Text))
  | d, [] => .ok (d, none)
  | d, arg :: args =>
    match g.commands.find? fun command => !d.onlyOperands && !d.waits && command.toList = arg with
    | some command => .ok (d, some (command, args))
    | none => do g.read (← d.take g arg) args

end Glossator.CommandLine

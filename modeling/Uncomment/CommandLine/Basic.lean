/-! # Command lines

A usage lists the switches and operands that a program takes. Arguments are read from left to right.
A value or an operand is accepted only once the next switch, or the end, shows that it is complete,
so of two mistakes the later one can be reported. -/

namespace Uncomment

inductive SwitchAction
  | flag
  | value
  | help
  | version
  deriving DecidableEq, Repr

structure Switch (Key : Type) where
  key : Key
  long : String
  short : Option Char
  action : SwitchAction

structure Operand (Key : Type) where
  key : Key
  isRepeated : Bool

structure Usage (Key : Type) where
  switches : List (Switch Key)
  operand : Option (Operand Key)
  /-- A value is one that a switch or an operand may have. -/
  accepts : Key → String → Bool

inductive Interruption
  | unknownArgument
  | invalidValue
  | conflict
  | missingArgument
  | tooManyValues
  | help (isLong : Bool)
  | version
  deriving DecidableEq, Repr

inductive Pending (Key : Type)
  | nothing
  /-- A switch that waits for its value, or has it. -/
  | value (key : Key) (given : Option String)
  | operands (key : Key) (values : List String)

/-- What the arguments so far say: the complete ones in order, and the one still being read. -/
structure Progress (Key : Type) where
  complete : List (Key × List String)
  pending : Pending Key
  operandCount : Nat

namespace Progress

def start : Progress Key where
  complete := []
  pending := .nothing
  operandCount := 0

def has [DecidableEq Key] (progress : Progress Key) (key : Key) : Bool :=
  progress.complete.any (·.1 = key)

def values [DecidableEq Key] (progress : Progress Key) (key : Key) : List String :=
  (progress.complete.filter (·.1 = key)).flatMap (·.2)

end Progress

namespace Usage

variable {Key : Type} [DecidableEq Key]

/-! ## Completing arguments -/

def noteOnce (usage : Usage Key) (progress : Progress Key) (key : Key) (values : List String) :
    Except Interruption (Progress Key) :=
  if progress.has key then
    .error .conflict
  else if values.all (usage.accepts key) then
    .ok { progress with complete := progress.complete ++ [(key, values)], pending := .nothing }
  else
    .error .invalidValue

def settle (usage : Usage Key) (progress : Progress Key) :
    Except Interruption (Progress Key) :=
  match progress.pending with
  | .nothing => .ok progress
  | .value _ none => .error .invalidValue
  | .value key (some value) => usage.noteOnce progress key [value]
  | .operands key values =>
      if values.all (usage.accepts key) then
        .ok { progress with complete := progress.complete ++ [(key, values)], pending := .nothing }
      else
        .error .invalidValue

/-! ## Reading arguments -/

def readSwitch (usage : Usage Key) (isLong : Bool) (switch : Switch Key)
    (progress : Progress Key) : Except Interruption (Progress Key) := do
  let progress ← usage.settle progress
  match switch.action with
  | .flag => usage.noteOnce progress switch.key []
  | .value => .ok { progress with pending := .value switch.key none }
  | .help => .error (.help isLong)
  | .version => .error .version

def readAttached (usage : Usage Key) (switch : Switch Key) (value : String)
    (progress : Progress Key) : Except Interruption (Progress Key) := do
  usage.noteOnce (← usage.settle progress) switch.key [value]

def readLong (usage : Usage Key) (progress : Progress Key) (argument : List Char) :
    Except Interruption (Progress Key) :=
  let name := String.ofList (argument.takeWhile (· ≠ '='))
  match usage.switches.find? (·.long == name), argument.dropWhile (· ≠ '=') with
  | none, _ => .error .unknownArgument
  | some switch, [] => usage.readSwitch true switch progress
  | some switch, _ :: value =>
      if switch.action = .value then
        usage.readAttached switch (String.ofList value) progress
      else
        .error .tooManyValues

/-- Several switches by their short names. What follows the name of one that takes a value is its
value, with an equals sign before it or without. -/
def readShort (usage : Usage Key) (progress : Progress Key) :
    List Char → Except Interruption (Progress Key)
  | [] => .ok progress
  | name :: rest =>
      match usage.switches.find? (·.short == some name) with
      | none => .error .unknownArgument
      | some switch =>
          if switch.action = .value ∧ rest ≠ [] then
            let value := if rest.head? = some '=' then rest.tail else rest
            usage.readAttached switch (String.ofList value) progress
          else do
            usage.readShort (← usage.readSwitch false switch progress) rest

def readOperand (usage : Usage Key) (progress : Progress Key) (argument : String) :
    Except Interruption (Progress Key) :=
  match usage.operand with
  | none => .error .unknownArgument
  | some operand =>
      if operand.isRepeated then
        match progress.pending with
        | .operands key values =>
            .ok { progress with pending := .operands key (values ++ [argument]) }
        | _ => addOperand operand
      else if progress.operandCount = 0 then
        addOperand operand
      else
        .error .unknownArgument
where
  addOperand (operand : Operand Key) : Except Interruption (Progress Key) := do
    let progress ← usage.settle progress
    return { progress with
      pending := .operands operand.key [argument]
      operandCount := progress.operandCount + 1 }

def readOperands (usage : Usage Key) (progress : Progress Key) :
    List String → Except Interruption (Progress Key)
  | [] => .ok progress
  | argument :: rest => do
      usage.readOperands (← usage.readOperand progress argument) rest

def readArgument (usage : Usage Key) (progress : Progress Key) (argument : String) :
    Except Interruption (Progress Key) :=
  match argument.toList with
  | '-' :: '-' :: name => usage.readLong progress name
  | '-' :: first :: others => usage.readShort progress (first :: others)
  | _ =>
      match progress.pending with
      | .value key none => .ok { progress with pending := .value key (some argument) }
      | _ => usage.readOperand progress argument

def readArguments (usage : Usage Key) (progress : Progress Key) :
    List String → Except Interruption (Progress Key)
  | [] => .ok progress
  | argument :: rest =>
      if argument = "--" then
        usage.readOperands progress rest
      else do
        usage.readArguments (← usage.readArgument progress argument) rest

def read (usage : Usage Key) (arguments : List String) :
    Except Interruption (Progress Key) := do
  usage.settle (← usage.readArguments .start arguments)

end Usage

end Uncomment

import InterfaceForms.Options
import InterfaceForms.Text.Basic

/-!
# Arguments of a command

A command is a word and flags. A flag takes its value from the same argument, after `=` or right
after a flag of one letter, or from the next argument; `--input` takes all the arguments up to the
next flag. A lone `-` is a value. All flags but `--input` may be given once.

* `Command.ofArguments?`: the command that the arguments ask for, if they ask for one.
-/

namespace InterfaceForms

inductive Flag
  | input
  | config
  | root
  | out
  | unknownTypes
  | arrayPrimitives
  | duplicates
  deriving DecidableEq, Repr

/-- The values of the flags given. -/
structure Flags where
  inputs : List Text := []
  config : Option Text := none
  root : Option Text := none
  out : Option Text := none
  unknownTypes : Option UnknownTypePolicy := none
  arrayPrimitives : Option ArrayPrimitivePolicy := none
  duplicates : Option DuplicatePolicy := none
  deriving DecidableEq, Repr

/-- What a command prints. -/
inductive View
  | schema
  | defaults
  | declarations
  deriving DecidableEq, Repr

inductive Command
  | help
  | version
  | show (view : View) (flags : Flags)
  deriving DecidableEq, Repr

namespace Flag

def ofLong? (name : String) : Option Flag :=
  match name with
  | "input" => some .input
  | "config" => some .config
  | "root" => some .root
  | "out" => some .out
  | "unknown-types" => some .unknownTypes
  | "array-primitives" => some .arrayPrimitives
  | "duplicates" => some .duplicates
  | _ => none

def ofShort? (c : Char) : Option Flag :=
  if c = 'i' then some .input else if c = 'o' then some .out else none

/-- Declarations are printed as they are: there is no root, and no file to print to. -/
def allowedFor (view : View) (flag : Flag) : Bool :=
  view ≠ .declarations || (flag ≠ .root && flag ≠ .out)

end Flag

namespace Flags

/-- Gives a value to a flag that has none. -/
def once {α : Type} (slot : Option α) (value : Option α) : Option (Option α) :=
  match slot, value with
  | none, some v => some (some v)
  | _, _ => none

/-- The path in an argument, which is not empty. -/
def path? (value : Text) : Option Text := if value = [] then none else some value

/-- The flags with one more value, unless the value or its repetition is refused. -/
def add? (flags : Flags) (flag : Flag) (value : Text) : Option Flags :=
  match flag with
  | .input => some { flags with inputs := flags.inputs ++ [value] }
  | .config => (once flags.config (path? value)).map fun v => { flags with config := v }
  | .root => (once flags.root (some value)).map fun v => { flags with root := v }
  | .out => (once flags.out (path? value)).map fun v => { flags with out := v }
  | .unknownTypes => (once flags.unknownTypes (UnknownTypePolicy.ofName? value.str)).map fun v =>
      { flags with unknownTypes := v }
  | .arrayPrimitives =>
      (once flags.arrayPrimitives (ArrayPrimitivePolicy.ofName? value.str)).map fun v =>
        { flags with arrayPrimitives := v }
  | .duplicates => (once flags.duplicates (DuplicatePolicy.ofName? value.str)).map fun v =>
      { flags with duplicates := v }

end Flags

/-! ## Reading -/

/-- What an argument is by itself. -/
inductive Argument
  | value (text : Text)
  /-- The end of the flags. -/
  | dashes
  | help
  | flag (flag : Flag) (attached : Option Text)
  | unknown

namespace Argument

/-- The value after an equals sign that ends a flag. -/
def attached? : Text → Option Text
  | '=' :: t => some t
  | _ => none

def ofText (argument : Text) : Argument :=
  match argument with
  | ['-', '-'] => .dashes
  | '-' :: '-' :: long =>
    let name : Text := long.takeWhile (· ≠ '=')
    let attached := attached? (long.dropWhile (· ≠ '='))
    match Flag.ofLong? name.str with
    | some f => .flag f attached
    | none => if name = "help".toList && attached = none then .help else .unknown
  | '-' :: c :: rest =>
    match Flag.ofShort? c with
    | some f => .flag f (if rest = [] then none else some ((attached? rest).getD rest))
    | none => if c = 'h' then .help else .unknown
  | t => .value t

end Argument

/-- Whose values come next. -/
inductive Awaited
  | nothing
  | value (flag : Flag)
  /-- More inputs, of which there is one. -/
  | inputs

namespace Command

/-- Reads the arguments after the word of a command. -/
def readFlags? (view : View) (flags : Flags) (awaited : Awaited) : List Text → Option Command
  | [] =>
    match awaited with
    | .value _ => none
    | _ => if flags.inputs = [] then none else some (.show view flags)
  | argument :: rest =>
    match Argument.ofText argument, awaited with
    | .value _, .nothing => none
    | .value value, .inputs => do readFlags? view (← flags.add? .input value) .inputs rest
    | .value value, .value .input => do
      readFlags? view (← flags.add? .input value) .inputs rest
    | .value value, .value flag => do readFlags? view (← flags.add? flag value) .nothing rest
    | _, .value _ => none
    | .dashes, _ =>
      if rest = [] && flags.inputs ≠ [] then some (.show view flags) else none
    | .help, _ => some .help
    | .unknown, _ => none
    | .flag flag attached, _ =>
      if !flag.allowedFor view then none
      else
        match attached with
        | some value => do readFlags? view (← flags.add? flag value) .nothing rest
        | none => readFlags? view flags (.value flag) rest

/-- The view that the word of a command names. -/
def view? : String → Option View
  | "schema" => some .schema
  | "defaults" => some .defaults
  | "declarations" => some .declarations
  | _ => none

/-- Help is given on the whole program, on one command or on help itself. -/
def isHelpTopic : List Text → Bool
  | [] => true
  | [topic] => topic.str = "help" || (view? topic.str).isSome
  | _ => false

/-- The command that the arguments of the program ask for, if they ask for one. -/
def ofArguments? : List Text → Option Command
  | [] => none
  | ('-' :: 'h' :: _) :: _ => some .help
  | ('-' :: 'V' :: _) :: _ => some .version
  | word :: rest =>
    match word.str with
    | "help" => if isHelpTopic rest then some .help else none
    | "--help" => some .help
    | "--version" => some .version
    | name => (view? name).bind fun view => readFlags? view {} .nothing rest

end Command

end InterfaceForms

import InterfaceForms.Command.Arguments
import InterfaceForms.Command.Settings
import InterfaceForms.Compile
import InterfaceForms.Declaration.Outline
import InterfaceForms.Default
import InterfaceForms.Files.Search
import InterfaceForms.Schema.Value
import InterfaceForms.Value.Printer

/-!
# Running a command

A command loads its settings, reads its inputs one after another into one text, and prints the
schema, the default document or the declarations that it finds there.

* `Command.run`: what a command prints, or the cause of its failure.
* `Command.outcome`: what a run of the program shows.
-/

namespace InterfaceForms

inductive CommandError
  | parse (cause : ParseError)
  | settingsNotFound (path : Text)
  | malformedSettings
  | unreadableInput (cause : FileError)
  | unreadableFile (path : Text) (cause : FileError)
  | malformedPattern (pattern : Text) (cause : PatternError)
  | noMatch (pattern : Text)
  | uncreatableDirectory (path : Text) (cause : FileError)
  | unwritableFile (path : Text) (cause : FileError)

def CommandError.message : CommandError → String
  | .parse cause => cause.message
  | .settingsNotFound path => "config file not found: " ++ path.str
  | .malformedSettings => "failed to load configuration"
  | .unreadableInput cause => "failed to read stdin: " ++ cause.message
  | .unreadableFile path cause =>
    "failed to read source file `" ++ path.str ++ "`: " ++ cause.message
  | .malformedPattern pattern cause =>
    "invalid glob pattern: " ++ pattern.str ++ ": " ++ cause.message
  | .noMatch pattern => "glob pattern matched no files: " ++ pattern.str
  | .uncreatableDirectory path cause =>
    "failed to create `" ++ path.str ++ "`: " ++ cause.message
  | .unwritableFile path cause =>
    "failed to write `" ++ path.str ++ "`: " ++ cause.message

/-- What a run of the program shows: its exit code, what it prints, and a message if it fails. -/
structure Outcome where
  code : Nat
  printed : Text
  message? : Option String
  deriving DecidableEq, Repr

namespace Command

variable {m : Type → Type} [Monad m]

/-- What running may fail with. -/
abbrev Running (m : Type → Type) := ExceptT CommandError m

/-- The value of a result, or the failure that its error causes. -/
def orFail {ε α : Type} (cause : ε → CommandError) (r : m (Except ε α)) : Running m α := do
  match ← (r : m _) with
  | .ok a => return a
  | .error e => throw (cause e)

/-! ## Settings -/

def loadSettings (world : World m) (flags : Flags) : Running m Settings := do
  match flags.config with
  | none => return {}
  | some path =>
    if !(← world.exists? path) then throw (.settingsNotFound path)
    if Path.extension? path ≠ some "toml".toList then throw .malformedSettings
    let bytes ← orFail (fun _ => .malformedSettings) (world.readFile path)
    match Text.ofBytes? bytes >>= Settings.ofText? with
    | some settings => return settings
    | none => throw .malformedSettings

/-- The settings with the flags, which win. -/
def withFlags (settings : Settings) (flags : Flags) : Settings where
  root := flags.root.getD settings.root
  options :=
    { unknownTypes := flags.unknownTypes.getD settings.options.unknownTypes
      arrayPrimitives := flags.arrayPrimitives.getD settings.options.arrayPrimitives
      duplicates := flags.duplicates.getD settings.options.duplicates }

/-! ## Inputs -/

/-- An input with one of these characters is a pattern. -/
def isPatternChar (c : Char) : Bool := c = '*' || c = '?' || c = '[' || c = '\x7b'

/-- The files that an input names. -/
def files (world : World m) (input : Text) : Running m (List Text) := do
  if input.any isPatternChar then
    let found ← orFail (.malformedPattern input) (world.search input)
    if found = [] then throw (.noMatch input)
    return found
  else return [input]

def readText (world : World m) (path : Text) : Running m Text := do
  let bytes ← orFail (.unreadableFile path) (world.readFile path)
  match Text.ofBytes? bytes with
  | some t => return t
  | none => throw (.unreadableFile path .notText)

/-- The text of an input, with a line end after each file. -/
def readInput (world : World m) (input : Text) : Running m Text := do
  if input = ['-'] then
    match Text.ofBytes? (← world.readInput) with
    | some t => return t ++ ['\n']
    | none => throw (.unreadableInput .notText)
  else
    let texts ← (← files world input).mapM (readText world)
    return (texts.map (· ++ ['\n'])).flatten

def readInputs (world : World m) (flags : Flags) : Running m Text := do
  return (← flags.inputs.mapM (readInput world)).flatten

/-! ## Output -/

/-- Writes to a file, making the directories on the way to it. -/
def writeTo (world : World m) (path content : Text) : Running m Unit := do
  match Path.parent? path with
  | none => pure ()
  | some directory =>
    orFail (.uncreatableDirectory directory) (world.makeDirectories directory)
  orFail (.unwritableFile path) (world.writeFile path content)

/-- What a view of a text prints. -/
def viewText (view : View) (settings : Settings) (t : Text) : Except ParseError Text := do
  match view with
  | .schema =>
    let roots ← (Declaration.compileText settings.options settings.root t).result
    return (Value.array (Schema.toValues roots)).pretty
  | .defaults =>
    let roots ← (Declaration.compileText settings.options settings.root t).result
    return (Schema.defaultDocument roots).pretty
  | .declarations =>
    let declarations ← (Declaration.ofText settings.options t).result
    return (Declaration.outlineAll declarations).render

def runView (world : World m) (view : View) (flags : Flags) : Running m Text := do
  let settings := withFlags (← loadSettings world flags) flags
  let t ← readInputs world flags
  let content ← orFail .parse (pure (viewText view settings t))
  match flags.out with
  | none => return content ++ ['\n']
  | some path =>
    writeTo world path content
    return []

/-- The name and the version of the program. -/
def versionLine : Text := "form-schema 0.1.0\n".toList

/-- How the program is called. -/
def usage : Text :=
  ("Usage: form-schema <schema|defaults|declarations> --input <INPUT>... [--config <FILE>]\n" ++
    "  [--root <NAME>] [--out <FILE>] [--unknown-types as-string|reject]\n" ++
    "  [--array-primitives as-string|preserve] [--duplicates last-wins|reject]\n").toList

/-- What a command prints. -/
def run (world : World m) : Command → Running m Text
  | .help => return usage
  | .version => return versionLine
  | .show view flags => runView world view flags

/-- What a run of the program with these arguments shows. Arguments that ask for no command are
answered with the exit code 2, and a failure with 1. -/
def outcome (world : World m) (arguments : List Text) : m Outcome := do
  match ofArguments? arguments with
  | none => return ⟨2, [], none⟩
  | some command =>
    match ← (run world command).run with
    | .ok printed => return ⟨0, printed, none⟩
    | .error e => return ⟨1, [], some e.message⟩

end Command

end InterfaceForms

import InterfaceForms.Command.Run

/-!
# Command line

Runs a command on the files of the system. What the command prints goes to the standard output,
and the message of a failure to the standard error.
-/

namespace InterfaceForms

namespace FileError

/-- The number and the description that the system gives. -/
def ofSystem : IO.Error → FileError
  | .alreadyExists _ code description => .system code.toNat description
  | .otherError code description => .system code.toNat description
  | .resourceBusy code description => .system code.toNat description
  | .resourceVanished code description => .system code.toNat description
  | .unsupportedOperation code description => .system code.toNat description
  | .hardwareFault code description => .system code.toNat description
  | .unsatisfiedConstraints code description => .system code.toNat description
  | .illegalOperation code description => .system code.toNat description
  | .protocolError code description => .system code.toNat description
  | .timeExpired code description => .system code.toNat description
  | .interrupted _ code description => .system code.toNat description
  | .noFileOrDirectory _ code description => .system code.toNat description
  | .invalidArgument _ code description => .system code.toNat description
  | .permissionDenied _ code description => .system code.toNat description
  | .resourceExhausted _ code description => .system code.toNat description
  | .inappropriateType _ code description => .system code.toNat description
  | .noSuchThing _ code description => .system code.toNat description
  | .unexpectedEof => .system 0 "unexpected end of file"
  | .userError message => .system 0 message

end FileError

namespace System

/-- The result of an action that the system may refuse. -/
def attempt {α : Type} (action : IO α) : IO (Except FileError α) :=
  tryCatch (.ok <$> action) fun e => return .error (.ofSystem e)

def succeeds (action : IO Bool) : IO Bool := do
  match ← attempt action with
  | .ok b => return b
  | .error _ => return false

def exists? (path : Text) : IO Bool :=
  succeeds do (← IO.FS.realPath path.str).pathExists

def isDirectory (path : Text) : IO Bool :=
  succeeds do (← IO.FS.realPath path.str).isDir

/-- The names in a directory; one that cannot be read holds none. -/
def entries (path : Text) : IO (List Text) := do
  match ← attempt do (← IO.FS.realPath path.str).readDir with
  | .ok found => return found.toList.map fun entry => entry.fileName.toList
  | .error _ => return []

/-- Makes a directory, after those on the way to it if one of them is missing. -/
partial def makeDirectories (path : Text) : IO Unit := do
  if path = [] then return
  try IO.FS.createDir path.str
  catch e =>
    match e, Path.parent? path with
    | .noFileOrDirectory .., some parent =>
      makeDirectories parent
      create
    | _, _ => unless ← isDirectory path do throw e
where
  create : IO Unit :=
    tryCatch (IO.FS.createDir path.str) fun e => do unless ← isDirectory path do throw e

/-- The files of the system and the standard input. -/
def world : World IO where
  exists? := exists?
  isDirectory := isDirectory
  entries := entries
  readFile path := attempt do (← IO.FS.Handle.mk path.str .read).readBinToEnd
  readInput := do (← IO.getStdin).readBinToEnd
  makeDirectories path := attempt (makeDirectories path)
  writeFile path content := attempt (IO.FS.writeBinFile path.str content.toBytes)

end System

end InterfaceForms

open InterfaceForms in
def main (args : List String) : IO UInt32 := do
  let outcome ← Command.outcome System.world (args.map String.toList)
  let output ← IO.getStdout
  output.write outcome.printed.toBytes
  output.flush
  if outcome.code = 2 then IO.eprint Command.usage.str
  match outcome.message? with
  | some message => IO.eprintln ("error: " ++ message)
  | none => pure ()
  return .ofNat outcome.code

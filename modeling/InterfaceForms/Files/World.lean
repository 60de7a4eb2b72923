import InterfaceForms.Text.Basic

/-!
# The world of files

What a command asks of the files around it and of its standard input. A command is written over
any monad with these operations, so that it runs on the real files as well as on a tree of files
in memory.
-/

namespace InterfaceForms

/-- Why an operation on a file was refused. -/
inductive FileError
  /-- The system gives a number and a description. -/
  | system (number : Nat) (description : String)
  /-- The bytes of the file are not UTF-8. -/
  | notText
  deriving DecidableEq, Repr

namespace FileError

def notFound : FileError := .system 2 "No such file or directory"
def permissionDenied : FileError := .system 13 "Permission denied"
def alreadyExists : FileError := .system 17 "File exists"
def notDirectory : FileError := .system 20 "Not a directory"
def isDirectory : FileError := .system 21 "Is a directory"

def message : FileError → String
  | .system number description => description ++ " (os error " ++ toString number ++ ")"
  | .notText => "stream did not contain valid UTF-8"

end FileError

structure World (m : Type → Type) where
  exists? : Text → m Bool
  isDirectory : Text → m Bool
  /-- The names in a directory. -/
  entries : Text → m (List Text)
  readFile : Text → m (Except FileError ByteArray)
  /-- The rest of the standard input. -/
  readInput : m ByteArray
  /-- Makes a directory and those on the way to it. -/
  makeDirectories : Text → m (Except FileError Unit)
  writeFile : Text → Text → m (Except FileError Unit)

/-- The text that bytes encode. -/
def Text.ofBytes? (bytes : ByteArray) : Option Text :=
  (String.fromUTF8? bytes).map String.toList

def Text.toBytes (t : Text) : ByteArray := t.str.toUTF8

end InterfaceForms

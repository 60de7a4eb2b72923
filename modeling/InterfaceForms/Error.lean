import InterfaceForms.Context

/-!
# Causes of failure

`ParseError` holds the reasons why a text has no schema, `EditError` the reasons why an edit does
not apply to a value. Each cause has one wording.
-/

namespace InterfaceForms

inductive ParseError
  | noDeclarations
  | rootNotFound (root : Text)
  /-- A record type without a key type and a value type. -/
  | malformedRecord (expr : Text)
  | unknownType (name : Text) (context : Context)
  | duplicateDeclaration (name : Text)
  /-- The names from a declaration back to itself, each referring to the next. -/
  | cyclicReference (path : List Text)
  deriving DecidableEq, Repr

def ParseError.message : ParseError → String
  | .noDeclarations => "no declarations found"
  | .rootNotFound root => root.str ++ " not found"
  | .malformedRecord expr =>
    "malformed record type `" ++ expr.str ++ "`: expected `Record<KeyType, ValueType>`"
  | .unknownType name context => "unknown type `" ++ name.str ++ "` in " ++ context.describe
  | .duplicateDeclaration name =>
    "declaration `" ++ name.str ++ "` is declared more than once"
  | .cyclicReference path =>
    "cyclic type reference: " ++ (Text.joinWith " -> ".toList path).str

inductive EditError
  | shapeMismatch (expected found : String)
  | indexOutOfBounds (index length : Nat)
  | missingKey (key : Text)
  | keyExists (key : Text)
  | unknownField (field : Text)
  deriving DecidableEq, Repr

def EditError.message : EditError → String
  | .shapeMismatch expected found => "expected " ++ expected ++ ", found " ++ found
  | .indexOutOfBounds index length =>
    "index " ++ toString index ++ " out of bounds (len " ++ toString length ++ ")"
  | .missingKey key => "key `" ++ key.str ++ "` does not exist"
  | .keyExists key => "key `" ++ key.str ++ "` already exists"
  | .unknownField field => "`" ++ field.str ++ "` is not a field of this object"

end InterfaceForms

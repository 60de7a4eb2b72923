import InterfaceForms.Primitive

/-!
# Schemas

A schema describes one place for a value: its kind, and for a named place its name, whether it may
be left out, and a description. Items of arrays and records, alternatives of unions and the whole
value of an alias are places without a name.
-/

namespace InterfaceForms

mutual
structure Schema where
  name : Text
  optional : Bool
  description : Option Text
  kind : Kind
inductive Kind
  | string
  | number
  | boolean
  | enum (values : List Text)
  | union (branches : List Schema)
  /-- The fields in the order of the members. -/
  | object (fields : List Schema)
  | array (item : Schema)
  /-- An object with arbitrary keys. -/
  | record (item : Schema)
end

def Primitive.kind : Primitive → Kind
  | .string => .string
  | .number => .number
  | .boolean => .boolean

namespace Kind

def primitive? : Kind → Option Primitive
  | .string => some .string
  | .number => some .number
  | .boolean => some .boolean
  | _ => none

def tag : Kind → String
  | .string => "string"
  | .number => "number"
  | .boolean => "boolean"
  | .enum _ => "enum"
  | .union _ => "union"
  | .object _ => "object"
  | .array _ => "array"
  | .record _ => "record"

end Kind

namespace Schema

/-- A nameless place that must be filled. -/
def anonymous (kind : Kind) : Schema := ⟨[], false, none, kind⟩

def isAnonymous (s : Schema) : Bool := s.name = []

def fields? (s : Schema) : Option (List Schema) :=
  match s.kind with
  | .object fields => some fields
  | _ => none

/-- The first field of an object with the given name. -/
def field? (s : Schema) (name : Text) : Option Schema := do
  let fields ← s.fields?
  fields.find? (·.name = name)

/-- What the items of an array or the values of a record are. -/
def item? (s : Schema) : Option Schema :=
  match s.kind with
  | .array item => some item
  | .record item => some item
  | _ => none

/-- A single nameless root describes the whole value, and is not a field of it. -/
def isDirectRoot : List Schema → Bool
  | [root] => root.isAnonymous
  | _ => false

end Schema

end InterfaceForms

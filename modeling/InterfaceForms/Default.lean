import InterfaceForms.Schema
import InterfaceForms.Value

/-!
# Default values

The default of a schema is the least value that fills it: containers are empty, and an optional
field is left out, since absence and not `null` means that it is not set. A union has no default of
its own and is `null` until one of its branches is chosen.

* `Schema.default`: the default of a schema.
* `Schema.branchDefault`: the value of a union when a branch is chosen.
* `Schema.defaultDocument`: the first document of a form.
-/

namespace InterfaceForms.Schema

/-- The first of the literals, or the empty string. -/
def firstLiteral (values : List Text) : Value := .string (values.head?.getD [])

mutual
def default : Schema → Value
  | ⟨_, _, _, kind⟩ => defaultOfKind kind
def defaultOfKind : Kind → Value
  | .string => .string []
  | .number => .int 0
  | .boolean => .bool false
  | .enum values => firstLiteral values
  | .union _ => .null
  | .object fields => .object (Entries.ofList (requiredDefaults fields))
  | .array _ => .array []
  | .record _ => .object []
/-- The names and defaults of the fields that must be present. -/
def requiredDefaults : List Schema → List (Text × Value)
  | [] => []
  | ⟨name, optional, _, kind⟩ :: fields =>
    if optional then requiredDefaults fields
    else (name, defaultOfKind kind) :: requiredDefaults fields
end

theorem default_eq (s : Schema) : s.default = defaultOfKind s.kind := by
  obtain ⟨_, _, _, kind⟩ := s
  rw [default]

theorem requiredDefaults_eq (fields : List Schema) :
    requiredDefaults fields =
      (fields.filter fun f => !f.optional).map fun f => (f.name, f.default) := by
  induction fields with
  | nil => rfl
  | cons f fields ih =>
    obtain ⟨name, optional, description, kind⟩ := f
    cases optional <;> simp [requiredDefaults, ih, default]

/-- The value that a union takes when a branch is chosen and nothing is carried over. -/
def branchDefault (branch : Schema) : Value :=
  match branch.kind with
  | .object _ => .object []
  | .number => .int 0
  | .boolean => .bool false
  | .enum values => firstLiteral values
  | _ => .string []

/-- The first document for the roots of a form: the value itself for a nameless single root, else
an object of the required fields. -/
def defaultDocument (roots : List Schema) : Value :=
  match roots, isDirectRoot roots with
  | [root], true => root.default
  | _, _ => .object (Entries.ofList (requiredDefaults roots))

end InterfaceForms.Schema

import InterfaceForms.Schema
import InterfaceForms.Value

/-!
# Schemas as values

A schema is written as an object. Its keys are, in this order, `name`, `isOptional` and
`description` where there is something to say, `type`, and one more for what the kind holds.
Reading takes a missing key for an empty name, a required place and no description.

* `Schema.toValue`, `Schema.ofValue?`: writing and reading.
-/

namespace InterfaceForms

/-! ## Writing -/

namespace Schema

/-- The entries that do not depend on the kind. -/
def labelEntries (s : Schema) : Entries Value :=
  (if s.name = [] then [] else [("name".toList, .string s.name)]) ++
  (if s.optional then [("isOptional".toList, .bool true)] else []) ++
  (match s.description with
    | none => []
    | some d => [("description".toList, .string d)])

mutual
def toValue : Schema → Value
  | ⟨name, optional, description, kind⟩ =>
    .object (labelEntries ⟨name, optional, description, kind⟩ ++
      ("type".toList, .string kind.tag.toList) :: payload kind)
/-- The entry for what a kind holds. -/
def payload : Kind → Entries Value
  | .string | .number | .boolean => []
  | .enum values => [("enumValues".toList, .array (values.map .string))]
  | .union branches => [("unionTypes".toList, .array (toValues branches))]
  | .object fields => [("fields".toList, .array (toValues fields))]
  | .array item => [("itemType".toList, item.toValue)]
  | .record item => [("itemType".toList, item.toValue)]
def toValues : List Schema → List Value
  | [] => []
  | s :: rest => s.toValue :: toValues rest
end

theorem toValues_eq (schemas : List Schema) : toValues schemas = schemas.map toValue := by
  induction schemas with
  | nil => rfl
  | cons s rest ih => simp [toValues, ih]

end Schema

/-! ## Reading -/

namespace Value

def text? : Value → Option Text
  | .string t => some t
  | _ => none

def bool? : Value → Option Bool
  | .bool b => some b
  | _ => none

/-- What is read at a key, or `default` if the key is missing. -/
def getOr {α : Type} (entries : Entries Value) (key : Text) (read : Value → Option α)
    (default : α) : Option α :=
  match Entries.get? key entries with
  | none => some default
  | some v => read v

theorem sizeOf_lt_of_get? {entries : Entries Value} {key : Text} {v : Value}
    (h : Entries.get? key entries = some v) : sizeOf v < sizeOf (Value.object entries) := by
  have := List.sizeOf_lt_of_mem (Entries.get?_eq_some_mem h)
  simp only [Value.object.sizeOf_spec, Prod.mk.sizeOf_spec] at this ⊢
  omega

end Value

/-- The kind that the entries describe, with `item?` and `items?` giving the schema and the
schemas at a key. -/
def Kind.ofEntries? (entries : Entries Value) (item? : Text → Option Schema)
    (items? : Text → Option (List Schema)) : Option Kind := do
  let tag ← (← Entries.get? "type".toList entries).text?
  if tag = "string".toList then return .string
  else if tag = "number".toList then return .number
  else if tag = "boolean".toList then return .boolean
  else if tag = "enum".toList then
    match ← Entries.get? "enumValues".toList entries with
    | .array values => return .enum (← values.mapM Value.text?)
    | _ => none
  else if tag = "union".toList then return .union (← items? "unionTypes".toList)
  else if tag = "object".toList then return .object (← items? "fields".toList)
  else if tag = "array".toList then return .array (← item? "itemType".toList)
  else if tag = "record".toList then return .record (← item? "itemType".toList)
  else none

namespace Schema

/-- The schema that a value describes, if it describes one. -/
def ofValue? : Value → Option Schema
  | .object entries => do
    let name ← Value.getOr entries "name".toList Value.text? []
    let optional ← Value.getOr entries "isOptional".toList Value.bool? false
    let description ← Value.getOr entries "description".toList (fun v => v.text?.map some) none
    let kind ← Kind.ofEntries? entries
      (fun key => match _h : Entries.get? key entries with
        | some item => ofValue? item
        | none => none)
      (fun key => match _h : Entries.get? key entries with
        | some (.array items) => items.attach.mapM fun ⟨item, _⟩ => ofValue? item
        | _ => none)
    return ⟨name, optional, description, kind⟩
  | _ => none
termination_by v => sizeOf v
decreasing_by
  · exact Value.sizeOf_lt_of_get? _h
  · rename_i hitem
    have := Value.sizeOf_lt_of_get? _h
    have := List.sizeOf_lt_of_mem hitem
    simp only [Value.array.sizeOf_spec] at *
    omega

end Schema

end InterfaceForms

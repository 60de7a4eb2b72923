import InterfaceForms.Edit
import InterfaceForms.Union

/-!
# Sessions

A session is a document, the root schemas of its form, and a run of edits. Each step names the
place of the value it changes by a path from the document, and gives a schema or the place of one
by a path from the roots. A step that fails leaves the document as it was.
-/

namespace InterfaceForms

/-! ## Places of schemas -/

/-- A step from a schema to one inside it. -/
inductive SchemaStep
  /-- To the items of an array or the values of a record. -/
  | item
  | field (name : Text)
  /-- To the field or branch at an index. -/
  | nth (i : Nat)
  deriving DecidableEq, Repr

def Schema.child? (s : Schema) : SchemaStep → Option Schema
  | .item => s.item?
  | .field name => s.field? name
  | .nth i => match s.kind with
    | .object fields => fields[i]?
    | .union branches => branches[i]?
    | _ => none

def Schema.at? : List SchemaStep → Schema → Option Schema
  | [], s => some s
  | step :: path, s => do (← s.child? step).at? path

/-- A schema, or its place seen from an object with the roots as its fields. -/
inductive SchemaRef
  | given (schema : Schema)
  | path (steps : List SchemaStep)

def SchemaRef.find? (roots : List Schema) : SchemaRef → Option Schema
  | .given schema => some schema
  | .path steps => (Schema.anonymous (.object roots)).at? steps

/-! ## Steps -/

inductive Action
  | push (item : SchemaRef)
  | remove (index : Nat)
  | addEntry (item : SchemaRef)
  | rename (old new : Text)
  | removeEntry (key : Text)
  | setOptional (schema : SchemaRef) (field : Text) (present : Bool)
  | switch (branch : SchemaRef)
  | active (union : SchemaRef)
  | setDefault (schema : SchemaRef)
  | set (value : Value)

structure Step where
  path : List Value.Key
  action : Action

inductive StepError
  /-- The path leads to no value. -/
  | badPath
  /-- The path leads to no schema. -/
  | badSchemaPath
  | edit (cause : EditError)

/-- What a step answers. -/
inductive Answer
  | none
  | index (i : Nat)
  | key (key : Text)
  | value (v : Value)

/-- The answer to an action and the value after it. -/
def Action.run (roots : List Schema) (v : Value) : Action → Except StepError (Answer × Value)
  | .push item => do
    let (i, v) ← edit (Edit.push (← schema item) v)
    return (.index i, v)
  | .remove i => do
    let (item, v) ← edit (Edit.remove i v)
    return (.value item, v)
  | .addEntry item => do
    let (key, v) ← edit (Edit.addEntry (← schema item) v)
    return (.key key, v)
  | .rename old new => do
    let ((), v) ← edit (Edit.rename old new v)
    return (.none, v)
  | .removeEntry key => do
    let (value, v) ← edit (Edit.removeEntry key v)
    return (.value value, v)
  | .setOptional s field present => do
    let ((), v) ← edit (Edit.setOptional (← schema s) field present v)
    return (.none, v)
  | .switch branch => do return (.none, v.switchTo (← schema branch))
  | .active union => do
    match (← schema union).kind with
    | .union branches => return ((Schema.activeBranch? branches v).elim .none .index, v)
    | _ => throw .badSchemaPath
  | .setDefault s => do return (.none, (← schema s).default)
  | .set new => return (.none, new)
where
  edit {α : Type} (e : Except EditError (α × Value)) : Except StepError (α × Value) :=
    e.mapError .edit
  schema (r : SchemaRef) : Except StepError Schema :=
    match r.find? roots with
    | some s => .ok s
    | none => .error .badSchemaPath

/-- The answer to a step and the document after it. -/
def Step.run (roots : List Schema) (document : Value) (step : Step) :
    Except StepError (Answer × Value) := do
  let some v := document.at? step.path | throw .badPath
  let (answer, v) ← step.action.run roots v
  return (answer, Value.setAt v step.path document)

/-- The document after a step, which is the same if the step fails. -/
def Step.after (roots : List Schema) (document : Value) (step : Step) : Value :=
  match step.run roots document with
  | .ok (_, document) => document
  | .error _ => document

/-- The answers to the steps of a session, each with the document after it. -/
def Session.run (roots : List Schema) (document : Value) :
    List Step → List (Except StepError Answer × Value)
  | [] => []
  | step :: steps =>
    let document' := step.after roots document
    ((step.run roots document).map (·.1), document') :: run roots document' steps

end InterfaceForms

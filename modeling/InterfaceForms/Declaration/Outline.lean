import InterfaceForms.Declaration
import InterfaceForms.Text.Outline

/-!
# Outlines of declarations

The debug view of the declarations in a text: for each its members or the target of its alias,
with the shapes of their types.
-/

namespace InterfaceForms

def Primitive.outline : Primitive → Outline
  | .string => .leaf "String".toList
  | .number => .leaf "Number".toList
  | .boolean => .leaf "Boolean".toList

def Branch.outline : Branch → Outline
  | .primitive type => .tuple "Primitive" [type.outline]
  | .literal value => .tuple "Literal" [.quoted value]
  | .reference expr => .tuple "Interface" [.quoted expr]

def Shape.outline : Shape → Outline
  | .enum values => .tuple "Enum" [.list (values.map .quoted)]
  | .union branches => .tuple "Union" [.list (branches.map Branch.outline)]
  | .record key value =>
    .record "Record" [("key_type", .quoted key), ("value_type", .quoted value)]
  | .array element => .tuple "Array" [.quoted element]
  | .named name => .tuple "Named" [.quoted name]

def Member.outline (m : Member) : Outline :=
  .record "Member" [
    ("name", .quoted m.name),
    ("optional", .bool m.optional),
    ("raw_type", .quoted m.rawType),
    ("description", .option (m.description.map .quoted)),
    ("shape", m.shape.outline)]

namespace Declaration

def outline (d : Declaration) : Outline :=
  let body := match d.body with
    | .block members => .tuple "Members" [.list (members.map Member.outline)]
    | .alias target => .tuple "Alias" [target.outline]
  .record "Declaration" [("name", .quoted d.name), ("body", body)]

def outlineAll (declarations : List Declaration) : Outline :=
  .map (declarations.map fun d => (d.name, d.outline))

end Declaration

end InterfaceForms

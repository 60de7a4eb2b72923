import InterfaceForms.Compile
import Mathlib.Logic.Relation

/-!
# A grammar of declarations

Declarations as trees, the text that each of them is written as, and the schema that each of them
means. Nothing here reads a text: what the readers make of a written declaration is compared with
its tree elsewhere.

* `Decl.print`: the text of a declaration.
* `Decls.WellFormed`: the declarations that can be written and have a meaning.
* `Decls.IsMeaning`: what the declared names stand for.
-/

namespace InterfaceForms

/-! ## Types -/

/-- A type as a tree. -/
inductive TypeExpr
  | primitive (type : Primitive)
  /-- The name of a declaration. -/
  | name (name : Text)
  /-- Quoted literals. -/
  | literals (values : List Text)
  | array (item : TypeExpr)
  | record (value : TypeExpr)
  | union (alternatives : List TypeExpr)

namespace TypeExpr

/-- The type is written with a bar at its top level, or could be. -/
def isChoice : TypeExpr → Bool
  | .literals _ | .union _ => true
  | _ => false

/-- A single literal. -/
def isLiteral : TypeExpr → Bool
  | .literals [_] => true
  | _ => false

def bar : Text := " | ".toList

def recordStart : Text := "Record<string, ".toList

def quoted (value : Text) : Text := '"' :: value ++ ['"']

def parenthesized (t : Text) : Text := '(' :: t ++ [')']

mutual
/-- The text of a type. A choice in front of `[]` stands in parentheses, and so does an alternative
that is a choice itself, other than a single literal. -/
def print : TypeExpr → Text
  | .primitive type => type.name
  | .name n => n
  | .literals values => Text.joinWith bar (values.map quoted)
  | .array item =>
    (if item.isChoice then parenthesized item.print else item.print) ++ ['[', ']']
  | .record value => recordStart ++ value.print ++ ['>']
  | .union alternatives => Text.joinWith bar (printAlternatives alternatives)
def printAlternatives : List TypeExpr → List Text
  | [] => []
  | t :: ts =>
    (if t.isChoice && !t.isLiteral then parenthesized t.print else t.print) ::
      printAlternatives ts
end

/-- The text of the type in front of `[]`. -/
def printItem (t : TypeExpr) : Text := if t.isChoice then parenthesized t.print else t.print

/-- The text of the type as an alternative of a union. -/
def printAlternative (t : TypeExpr) : Text :=
  if t.isChoice && !t.isLiteral then parenthesized t.print else t.print

theorem print_array (t : TypeExpr) : (array t).print = t.printItem ++ ['[', ']'] := by
  rw [print, printItem]

theorem printAlternatives_eq (ts : List TypeExpr) :
    printAlternatives ts = ts.map printAlternative := by
  induction ts with
  | nil => rfl
  | cons t ts ih => rw [printAlternatives, ih, List.map_cons, printAlternative]

theorem print_union (ts : List TypeExpr) :
    (union ts).print = Text.joinWith bar (ts.map printAlternative) := by
  rw [print, printAlternatives_eq]

end TypeExpr

/-! ## Declarations -/

/-- What is said about a member. -/
inductive Note
  | none
  /-- After the member on its line. -/
  | after (comment : Text)
  /-- Before the member on a line of its own. -/
  | before (comment : Text)

def Note.text? : Note → Option Text
  | .none => Option.none
  | .after comment | .before comment => some comment

structure FieldDecl where
  name : Text
  optional : Bool
  type : TypeExpr
  note : Note

inductive DeclBody
  | block (fields : List FieldDecl)
  | alias (target : TypeExpr)

structure Decl where
  name : Text
  body : DeclBody

/-- The types written in a declaration. -/
def Decl.types (d : Decl) : List TypeExpr :=
  match d.body with
  | .block fields => fields.map (·.type)
  | .alias target => [target]

/-! ## Printing -/

/-- What a text may look like without saying anything else. -/
structure Layout where
  /-- The blanks before a member. -/
  indent : Nat
  /-- A semicolon ends each member. -/
  closeMembers : Bool
  /-- A semicolon ends each alias. -/
  closeAliases : Bool
  /-- The empty lines between two declarations. -/
  gap : Nat
  /-- The newlines at the end of the text. -/
  final : Nat

def Layout.indentation (l : Layout) : Text := List.replicate l.indent ' '

/-- The end of a member or an alias. -/
def terminator (close : Bool) : Text := if close then [';'] else []

/-- The member without its note. -/
def FieldDecl.code (f : FieldDecl) : Text :=
  f.name ++ (if f.optional then ['?'] else []) ++ ": ".toList ++ f.type.print

/-- The lines of a member, each with its newline. -/
def FieldDecl.print (l : Layout) (f : FieldDecl) : Text :=
  (match f.note with
    | .before comment => l.indentation ++ "/** ".toList ++ comment ++ " */\n".toList
    | _ => []) ++
  l.indentation ++ f.code ++ terminator l.closeMembers ++
  (match f.note with
    | .after comment => " // ".toList ++ comment
    | _ => []) ++ ['\n']

def Decl.print (l : Layout) (d : Decl) : Text :=
  match d.body with
  | .block fields =>
    "interface ".toList ++ d.name ++ " \x7b\n".toList ++ fields.flatMap (·.print l) ++ ['\x7d']
  | .alias target =>
    "type ".toList ++ d.name ++ " = ".toList ++ target.print ++ terminator l.closeAliases

/-- The text of declarations, one after another. -/
def Decls.print (l : Layout) (ds : List Decl) : Text :=
  Text.joinWith (List.replicate (l.gap + 1) '\n') (ds.map (·.print l)) ++
    List.replicate l.final '\n'

/-! ## What can be written -/

/-- A character of a name: a letter or digit of ASCII, `_` or `$`. -/
def isNameChar (c : Char) : Bool := c.isAlphanum || c = '_' || c = '$'

/-- A name that starts with no digit. -/
def IsName : Text → Prop
  | [] => False
  | c :: t => Header.startsName c = true ∧ t.all isNameChar = true

/-- A name that can be declared: one of a primitive type cannot. -/
structure IsTypeName (t : Text) : Prop where
  name : IsName t
  declarable : Primitive.ofName? t = none

/-- A character of a literal. -/
def isLiteralChar (c : Char) : Bool := !(['"', '\\', '\n', '(', ')'].contains c)

/-- What can stand between double quotes. -/
structure IsLiteral (t : Text) : Prop where
  trimmed : Text.trim t = t
  chars : t.all isLiteralChar = true

/-- The names in the type are names, the literals can be quoted, and what is built of alternatives
has enough of them. A union of single literals is a list of literals. -/
inductive TypeExpr.WellFormed : TypeExpr → Prop
  | primitive (type : Primitive) : WellFormed (.primitive type)
  | name {name : Text} (h : IsTypeName name) : WellFormed (.name name)
  | literals {values : List Text} (hne : values ≠ []) (h : ∀ value ∈ values, IsLiteral value) :
    WellFormed (.literals values)
  | array {item : TypeExpr} : WellFormed item → WellFormed (.array item)
  | record {value : TypeExpr} : WellFormed value → WellFormed (.record value)
  | union {ts : List TypeExpr} (hlen : 2 ≤ ts.length) (hmixed : ∃ t ∈ ts, t.isLiteral = false) :
    (∀ t ∈ ts, WellFormed t) → WellFormed (.union ts)

/-- A line without blanks at its ends. -/
structure IsLine (t : Text) : Prop where
  ne_nil : t ≠ []
  trimmed : Text.trim t = t
  no_newline : '\n' ∉ t

def Note.WellFormed : Note → Prop
  | .none => True
  | .after comment => IsLine comment ∧ Text.startsWith '/' comment = false ∧
    Text.endsWith '\x7b' comment = false
  | .before comment => IsLine comment ∧ Text.startsWith '*' comment = false ∧
    ¬ ['*', '/'] <:+: comment

structure FieldDecl.WellFormed (f : FieldDecl) : Prop where
  name : IsName f.name
  type : f.type.WellFormed
  note : f.note.WellFormed

structure Decl.WellFormed (d : Decl) : Prop where
  name : IsTypeName d.name
  body : match d.body with
    | .block fields => ∀ f ∈ fields, f.WellFormed
    | .alias target => target.WellFormed

/-! ## References -/

/-- The name occurs in the type. -/
inductive TypeExpr.Mentions : TypeExpr → Text → Prop
  | name {name : Text} : Mentions (.name name) name
  | item {item : TypeExpr} {name : Text} : Mentions item name → Mentions (.array item) name
  | value {value : TypeExpr} {name : Text} : Mentions value name → Mentions (.record value) name
  | alternative {ts : List TypeExpr} {t : TypeExpr} {name : Text} (h : t ∈ ts) :
    Mentions t name → Mentions (.union ts) name

/-- The name occurs in a type of the declaration. -/
def Decl.Mentions (d : Decl) (name : Text) : Prop := ∃ t ∈ d.types, t.Mentions name

namespace Decls

/-- The declaration of `a` mentions `b`. -/
def Refers (ds : List Decl) (a b : Text) : Prop := ∃ d ∈ ds, d.name = a ∧ d.Mentions b

/-- Every name is declared once, and the references lead to declarations and not in a circle. -/
structure WellFormed (ds : List Decl) : Prop where
  decl : ∀ d ∈ ds, d.WellFormed
  names : (ds.map (·.name)).Nodup
  declared : ∀ a b, Refers ds a b → ∃ d ∈ ds, d.name = b
  acyclic : ∀ a, ¬ Relation.TransGen (Refers ds) a a

end Decls

/-! ## Meaning -/

section Meaning

variable (policy : ArrayPrimitivePolicy) (env : Position → Text → Kind)

mutual
/-- The kind of a type at a position, where `env` gives what the names stand for there. -/
def TypeExpr.kind (position : Position) : TypeExpr → Kind
  | .primitive type => type.compile policy position
  | .name n => env position n
  | .literals values => .enum values
  | .array item => .array (.anonymous (item.kind .arrayItem))
  | .record value => .record (.anonymous (value.kind .recordValue))
  | .union alternatives => .union ((kinds alternatives).map .anonymous)
def TypeExpr.kinds : List TypeExpr → List Kind
  | [] => []
  | t :: ts => t.kind .unionBranch :: kinds ts
end

theorem TypeExpr.kinds_eq (ts : List TypeExpr) :
    kinds policy env ts = ts.map (kind policy env .unionBranch) := by
  induction ts with
  | nil => rfl
  | cons t ts ih => rw [kinds, ih, List.map_cons]

def FieldDecl.schema (f : FieldDecl) : Schema :=
  ⟨f.name, f.optional, f.note.text?, f.type.kind policy env .field⟩

/-- What a reference to the declaration stands for at a position: an object for a block, and the
target for an alias. -/
def Decl.kind (position : Position) (d : Decl) : Kind :=
  match d.body with
  | .block fields => .object (fields.map (·.schema policy env))
  | .alias target => target.kind policy env position

/-- The schemas of a form for the declaration. -/
def Decl.schemas (d : Decl) : List Schema :=
  match d.body with
  | .block fields => fields.map (·.schema policy env)
  | .alias target => [.anonymous (target.kind policy env .field)]

/-- Every declared name stands for its declaration, at every position. -/
def Decls.IsMeaning (ds : List Decl) : Prop :=
  ∀ d ∈ ds, ∀ position, env position d.name = d.kind policy env position

end Meaning

end InterfaceForms

import InterfaceForms.Shape

/-!
# Members

A member is written `name?: type // description`. The name may be quoted, `readonly` may stand
before it, and the type may end in semicolons or commas.
-/

namespace InterfaceForms

structure Member where
  /-- Empty for the target of an alias. -/
  name : Text
  optional : Bool
  /-- The type expression as written. -/
  rawType : Text
  description : Option Text
  shape : Shape
  deriving DecidableEq, Repr

namespace Member

/-- The line without blanks around it and without a leading `readonly`. -/
def bareLine (line : Text) : Text :=
  let line := Text.trim line
  Text.trimStart ((Text.dropStart? "readonly ".toList line).getD line)

/-- The code of a line and its comment, if the comment holds more than slashes and blanks. -/
def codeAndComment (line : Text) : Text × Option Text :=
  match Text.cutComment? .start line with
  | none => (line, none)
  | some (code, comment) =>
    let comment := Text.trim (comment.dropWhile (· = '/'))
    (Text.trimEnd code, if comment = [] then none else some comment)

/-- The name before the colon, without its question marks and quotes. -/
def nameOf (left : Text) : Text :=
  let name := Text.trim (Text.dropEndWhile (· = '?') left)
  (Text.unquote? name).getD name

def rawTypeOf (right : Text) : Text :=
  Text.trim (Text.dropEndWhile (fun c => c = ';' || c = ',') (Text.trim right))

/-- The member in a line of code. There is none in a line without a colon, with nothing on one
side of it, or with a parenthesis before it, which is a method. -/
def ofCode (code : Text) (description : Option Text) : Except ParseError (Option Member) :=
  match Text.cutTop? ':' code with
  | none => .ok none
  | some (left, right) =>
    let left := Text.trim left
    let rawType := rawTypeOf right
    if left = [] || left.contains '(' || rawType = [] then .ok none
    else do
      let shape ← Shape.ofExpr rawType
      return some ⟨nameOf left, Text.endsWith '?' left, rawType, description, shape⟩

/-- The member in a line, if there is one. -/
def ofLine (line : Text) : Except ParseError (Option Member) :=
  let (code, description) := codeAndComment (bareLine line)
  ofCode code description

/-- The nameless member that stands for the target of an alias. -/
def ofAlias (expr : Text) : Except ParseError Member := do
  let shape ← Shape.ofExpr expr
  return ⟨[], false, Text.trim expr, none, shape⟩

end Member

end InterfaceForms

import InterfaceForms.Error
import InterfaceForms.Expression.Nesting
import InterfaceForms.Expression.Parens
import InterfaceForms.Primitive

/-!
# Shapes of type expressions

The shape of a type expression is its outermost form; the expressions inside it stay text. An
expression is, in this order of trying, a list of quoted literals, a union of alternatives, a
record, an array or a name. What a name stands for is decided elsewhere: only there all
declarations are known.

* `Shape.ofExpr_error`: the one failure is a malformed record.
-/

namespace InterfaceForms

/-- An alternative of a union. -/
inductive Branch
  | primitive (type : Primitive)
  | literal (value : Text)
  /-- Any other expression, mostly the name of a declaration. -/
  | reference (expr : Text)
  deriving DecidableEq, Repr

inductive Shape
  /-- Quoted literals only, in order and without their quotes. -/
  | enum (values : List Text)
  | union (branches : List Branch)
  | record (key value : Text)
  | array (element : Text)
  | named (name : Text)
  deriving DecidableEq, Repr

namespace Text

/-- The non-blank alternatives of an expression, trimmed. -/
def alternatives (expr : Text) : List Text :=
  ((splitTop '|' expr).map trim).filter (· ≠ [])

/-- What stands before a final `[]`. -/
def dropArrayMark? (expr : Text) : Option Text :=
  match expr.reverse with
  | ']' :: '[' :: element => some element.reverse
  | _ => none

end Text

def Branch.ofExpr (expr : Text) : Branch :=
  match Text.unquote? expr with
  | some value => .literal (Text.trim value)
  | none =>
    match Primitive.ofName? expr with
    | some type => .primitive type
    | none => .reference (Text.stripParens expr)

namespace Shape

/-- An array if the expression ends in `[]`, else a name. -/
def ofArrayOrName (expr : Text) : Shape :=
  match Text.dropArrayMark? expr with
  | some element => .array (Text.stripParens element)
  | none => .named expr

/-- The record with the type arguments `args`: a key type and a value type, parted by the first
top-level comma. -/
def ofRecordArguments? (args : Text) : Option Shape :=
  match Text.cutTop? ',' args with
  | some (key, value) =>
    if Text.blank key || Text.blank value then none
    else some (.record (Text.trim key) (Text.trim value))
  | none => none

/-- The shape of an expression that is no union and no literal. After `Record<` the closing angle
bracket is required; if more than blanks follow it, the expression is an array or a name. -/
def ofSingle (expr : Text) : Except ParseError Shape :=
  match Text.dropStart? "Record<".toList expr with
  | none => .ok (ofArrayOrName expr)
  | some args =>
    match Text.closeAngle? .start 0 args with
    | none => .error (.malformedRecord expr)
    | some (args, rest) =>
      if Text.blank rest then
        match ofRecordArguments? args with
        | some shape => .ok shape
        | none => .error (.malformedRecord expr)
      else .ok (ofArrayOrName expr)

/-- The shape of an expression with the given alternatives. -/
def ofAlternatives : List Text → Except ParseError Shape
  | [] => .ok (.named [])
  | [expr] =>
    match Text.unquote? expr with
    | some value => .ok (.enum [Text.trim value])
    | none => ofSingle (Text.stripParens expr)
  | exprs =>
    match exprs.mapM Text.unquote? with
    | some values => .ok (.enum (values.map Text.trim))
    | none => .ok (.union (exprs.map Branch.ofExpr))

/-- The expression without blanks, final semicolons and wrapping parentheses on the outside. -/
def bareExpr (expr : Text) : Text :=
  Text.stripParens (Text.dropEndWhile (· = ';') (Text.trim expr))

def ofExpr (expr : Text) : Except ParseError Shape :=
  ofAlternatives (Text.alternatives (bareExpr expr))

end Shape

end InterfaceForms

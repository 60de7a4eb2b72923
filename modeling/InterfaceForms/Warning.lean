import InterfaceForms.Error

/-!
# Warnings, and results that carry them

A warning records something in a text that was tolerated. `Logged α` is the result of a reading
that may fail: the warnings it gave, in order, and then a value or the cause of failure. The
warnings given before a failure are kept.

* `Logged.bind_warnings`: the warnings of a sequence are those of its steps, in order.
-/

namespace InterfaceForms

inductive Warning
  /-- The header at line `again` replaces the declaration read at line `first`. -/
  | duplicateDeclaration (name : Text) (first again : Nat)
  /-- A member whose type is written out as an object; its body was skipped. -/
  | inlineObjectMember (declaration member : Text)
  | blankAlias (name : Text)
  /-- An object written out inside a type, taken for the fallback of its position. -/
  | inlineObjectType (context : Context) (position : Position)
  /-- A name that is neither primitive nor declared, taken for the fallback of its position. -/
  | unknownType (name : Text) (context : Context) (position : Position)
  deriving DecidableEq, Repr

def Warning.message : Warning → String
  | .duplicateDeclaration .. => "duplicate declaration, last one wins"
  | .inlineObjectMember .. => "inline object types are not supported; body ignored"
  | .blankAlias .. => "alias without a type expression ignored"
  | .inlineObjectType .. => "inline object types are not supported, falling back"
  | .unknownType .. => "unknown type, falling back"

/-- The facts of a warning, each under its name. -/
def Warning.fields : Warning → List (String × String)
  | .duplicateDeclaration name first again =>
    [("name", name.str), ("first", toString first), ("again", toString again)]
  | .inlineObjectMember declaration member =>
    [("declaration", declaration.str), ("member", member.str)]
  | .blankAlias name => [("name", name.str)]
  | .inlineObjectType context position =>
    [("context", context.describe), ("pos", position.name)]
  | .unknownType name context position =>
    [("ty", name.str), ("context", context.describe), ("pos", position.name)]

structure Logged (α : Type) where
  warnings : List Warning
  result : Except ParseError α

namespace Logged

variable {α β : Type}

def pure (a : α) : Logged α := ⟨[], .ok a⟩

def bind (x : Logged α) (f : α → Logged β) : Logged β :=
  match x.result with
  | .error e => ⟨x.warnings, .error e⟩
  | .ok a =>
    let y := f a
    ⟨x.warnings ++ y.warnings, y.result⟩

instance : Monad Logged where
  pure := pure
  bind := bind

def fail (e : ParseError) : Logged α := ⟨[], .error e⟩

def warn (w : Warning) : Logged Unit := ⟨[w], .ok ()⟩

/-- A result without warnings. -/
def ofExcept (r : Except ParseError α) : Logged α := ⟨[], r⟩

theorem bind_eq (x : Logged α) (f : α → Logged β) : x >>= f = bind x f := rfl

theorem pure_eq (a : α) : (Pure.pure a : Logged α) = pure a := rfl

theorem bind_warnings (x : Logged α) (f : α → Logged β) :
    (x >>= f).warnings = x.warnings ++ match x.result with
      | .error _ => []
      | .ok a => (f a).warnings := by
  rw [bind_eq, bind]
  cases x.result <;> simp

theorem bind_result (x : Logged α) (f : α → Logged β) :
    (x >>= f).result = x.result >>= fun a => (f a).result := by
  rw [bind_eq, bind]
  cases x.result <;> rfl

instance : LawfulMonad Logged := LawfulMonad.mk' Logged
  (fun x => by obtain ⟨ws, r⟩ := x; cases r <;> simp [Functor.map, bind, pure])
  (fun a f => by simp [Bind.bind, Pure.pure, bind, pure])
  (fun x f g => by
    obtain ⟨ws, r⟩ := x
    cases r with
    | error e => rfl
    | ok a =>
      simp only [Bind.bind, bind]
      cases (f a).result <;> simp)

end Logged

end InterfaceForms

import InterfaceForms.Member
import InterfaceForms.Source

/-!
# Declarations

A declaration is a block of members or an alias of a type. Member lines that declare no member are
left out, and a block comment before a member describes it where no comment at its end does.
-/

namespace InterfaceForms

inductive DeclarationBody
  | block (members : List Member)
  /-- The target is a nameless member. -/
  | alias (target : Member)
  deriving DecidableEq, Repr

structure Declaration where
  name : Text
  body : DeclarationBody
  deriving DecidableEq, Repr

def MemberLine.member? (line : MemberLine) : Except ParseError (Option Member) := do
  let member? ← Member.ofLine line.text
  return member?.map fun m => { m with description := m.description.or line.doc }

namespace Declaration

def ofSource (source : Source) : Except ParseError Declaration := do
  let body ← match source.body with
    | .block lines => do
      let members ← lines.mapM MemberLine.member?
      pure (.block (members.filterMap id))
    | .alias expr => .alias <$> Member.ofAlias expr
  return ⟨source.name, body⟩

/-- The declarations in a text, in the order in which their names first appear. -/
def ofText (options : Options) (t : Text) : Logged (List Declaration) := do
  let sources ← Source.scan options.duplicates t
  Logged.ofExcept (sources.mapM ofSource)

end Declaration

end InterfaceForms

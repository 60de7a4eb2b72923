import InterfaceForms.Declaration
import InterfaceForms.Schema
import InterfaceForms.TypeTree

/-!
# Compilation

The schema of a declaration is its type tree with every name replaced by what it stands for. Names
are looked up among all declarations, so their order in the text does not matter. A declaration
that is reached again while it is being expanded makes a cycle, and the compilation fails.

* `Declaration.resolve`: what a name stands for.
* `Declaration.compile`: the schemas of a root, one for each member of a block, and a single
  nameless one for an alias.
-/

namespace InterfaceForms

/-! ## Types, with the meaning of names given -/

mutual
/-- The kind of a type at a position, with `resolve` giving what names stand for. -/
def TypeTree.compile (resolve : Position → Text → Logged Kind) (position : Position) :
    TypeTree → Logged Kind
  | .literals values => return .enum values
  | .union branches => return .union ((← compileBranches resolve branches).map .anonymous)
  | .record value => return .record (.anonymous (← value.compile resolve .recordValue))
  | .array item => return .array (.anonymous (← item.compile resolve .arrayItem))
  | .named name => resolve position name
  | .malformed cause => Logged.fail cause
def TypeTree.compileBranches (resolve : Position → Text → Logged Kind) :
    List TypeTree → Logged (List Kind)
  | [] => return []
  | branch :: branches =>
    return (← branch.compile resolve .unionBranch) :: (← compileBranches resolve branches)
end

theorem TypeTree.compileBranches_eq (resolve : Position → Text → Logged Kind)
    (branches : List TypeTree) :
    compileBranches resolve branches = branches.mapM (compile resolve .unionBranch) := by
  induction branches with
  | nil => simp [compileBranches]
  | cons branch branches ih => simp [compileBranches, ih]

def Member.compile (resolve : Position → Text → Logged Kind) (m : Member) : Logged Schema :=
  return ⟨m.name, m.optional, m.description, ← m.shape.tree.compile resolve .field⟩

/-! ## Names -/

/-- In an array a number or boolean becomes a string if the policy asks for it. -/
def Primitive.compile (policy : ArrayPrimitivePolicy) (position : Position) (p : Primitive) :
    Kind :=
  if position = .arrayItem ∧ policy = .asString then .string else p.kind

/-- What is taken for a type that nothing declares. -/
def Position.fallback : Position → Kind
  | .recordValue => .object []
  | _ => .string

/-- What a name stands for that is neither primitive nor declared. -/
def unknownType (policy : UnknownTypePolicy) (context : Context) (position : Position)
    (name : Text) : Logged Kind :=
  match policy with
  | .reject => Logged.fail (.unknownType name context)
  | .asString => do
    Logged.warn (if Text.startsWith '\x7b' name then .inlineObjectType context position
      else .unknownType name context position)
    return position.fallback

namespace Declaration

def find? (declarations : List Declaration) (name : Text) : Option Declaration :=
  List.find? (fun d => d.name = name) declarations

/-- The declarations that are not being expanded. -/
def pending (declarations : List Declaration) (stack : List Text) : List Declaration :=
  declarations.filter fun d => d.name ∉ stack

theorem length_pending_lt {declarations : List Declaration} {stack : List Text} {name : Text}
    {d : Declaration} (h : find? declarations name = some d) (hstack : name ∉ stack) :
    (pending declarations (stack ++ [name])).length < (pending declarations stack).length := by
  have hmem := List.mem_of_find?_eq_some h
  have hname : d.name = name := by simpa using List.find?_some h
  have hsub : pending declarations (stack ++ [name]) =
      (pending declarations stack).filter fun d => d.name ≠ name := by
    unfold pending
    rw [List.filter_filter]
    apply List.filter_congr
    intro e _
    simp [and_comm]
  rw [hsub]
  apply List.length_filter_lt_length_iff_exists.2
  exact ⟨d, List.mem_filter.2 ⟨hmem, by simpa [hname] using hstack⟩, by simp [hname]⟩

/-- The kind that a name stands for at a position. The names in `stack` are those of the
declarations being expanded, outermost first, and `member` is the member being compiled. An alias
stands for its target, read at the position of the name. -/
def resolve (declarations : List Declaration) (options : Options) (stack : List Text)
    (member : Text) (position : Position) (name : Text) : Logged Kind :=
  match Primitive.ofName? name with
  | some p => return p.compile options.arrayPrimitives position
  | none =>
    match _h : find? declarations name with
    | none =>
      unknownType options.unknownTypes ⟨stack.getLast?.getD [], member⟩ position name
    | some d =>
      if _hs : name ∈ stack then
        Logged.fail (.cyclicReference (stack.dropWhile (· ≠ name) ++ [name]))
      else
        match d.body with
        | .block members => return .object (← members.mapM fun m =>
            m.compile fun position inner =>
              resolve declarations options (stack ++ [name]) m.name position inner)
        | .alias target =>
          target.shape.tree.compile (fun position inner =>
            resolve declarations options (stack ++ [name]) member position inner) position
termination_by (pending declarations stack).length
decreasing_by all_goals exact length_pending_lt _h _hs

/-- The schemas of the declaration named `root`. -/
def compile (declarations : List Declaration) (options : Options) (root : Text) :
    Logged (List Schema) :=
  match find? declarations root with
  | none => Logged.fail (.rootNotFound root)
  | some d =>
    let member (m : Member) := m.compile (resolve declarations options [root] m.name)
    match d.body with
    | .block members => members.mapM member
    | .alias target => return [← member target]

/-- Reads the declarations in a text and compiles one of them. -/
def compileText (options : Options) (root : Text) (t : Text) : Logged (List Schema) := do
  let declarations ← ofText options t
  compile declarations options root

end Declaration

end InterfaceForms

import InterfaceForms.Header
import InterfaceForms.Options
import InterfaceForms.Segment
import InterfaceForms.Warning

/-!
# Sources of declarations

The segments of a text from one header to the next are a section. Each section gives the source of
one declaration: the lines of its members or the expression of its alias, as they stand in the
text. What is neither a header nor a line of a declaration is skipped.

* `Source.scan`: the sources in a text, in the order in which their names first appear.
-/

namespace InterfaceForms

/-- A line of a block that may declare a member, and the block comment before it. -/
structure MemberLine where
  text : Text
  doc : Option Text
  deriving DecidableEq, Repr

inductive SourceBody
  | block (lines : List MemberLine)
  | alias (expr : Text)
  deriving DecidableEq, Repr

structure Source where
  name : Text
  /-- The line of the header. -/
  line : Nat
  body : SourceBody
  deriving DecidableEq, Repr

/-! ## Sections -/

structure Section where
  header : Header
  line : Nat
  /-- The segments up to the next header. -/
  body : List Segment
  deriving DecidableEq, Repr

def Section.ofSegments : List Segment → List Section
  | [] => []
  | s :: rest =>
    match Header.ofLine? s.text with
    | none => ofSegments rest
    | some header =>
      ⟨header, s.line, rest.takeWhile fun s => (Header.ofLine? s.text).isNone⟩ :: ofSegments rest

/-! ## Blocks -/

namespace MemberLine

/-- A member starts with a letter, `_`, `$` or a quotation mark. -/
def startsMember : Text → Bool
  | [] => false
  | c :: _ => Text.isAlphabetic c || c = '_' || c = '$' || c = '"' || c = '\x27'

/-- The text before the first ` // `, and the rest from there on. -/
def cutTrailer : Text → Text × Text
  | [] => ([], [])
  | c :: t =>
    if " // ".toList.isPrefixOf (c :: t) then ([], c :: t)
    else
      let (code, trailer) := cutTrailer t
      (c :: code, trailer)

/-- Adds an alternative to the type of a member; a comment at the end stays there. -/
def extend (line : MemberLine) (alternative : Text) : MemberLine :=
  let (code, trailer) := cutTrailer line.text
  { line with text := Text.trimEnd code ++ ' ' :: alternative ++ trailer }

/-- Adds an alternative to the last member, which is the first of the list. -/
def extendLast (alternative : Text) : List MemberLine → List MemberLine
  | [] => []
  | line :: lines => line.extend alternative :: lines

end MemberLine

namespace Section

/-- What stands before a final opening brace. -/
def beforeBrace? (line : Text) : Option Text :=
  if Text.endsWith '\x7b' line then some line.dropLast else none

/-- The member lines of a block up to the brace that closes it. `lines` are those read before,
last first, and `nested` counts the open braces inside the block. A member whose type is an object
written out keeps an empty pair of braces, and the body of the object is skipped. -/
def readBlock (owner : Text) (nested : Nat) (lines : List MemberLine) :
    List Segment → Logged (List MemberLine)
  | [] => return lines.reverse
  | s :: rest =>
    if s.text = ['\x7d'] then
      match nested with
      | 0 => return lines.reverse
      | nested + 1 => readBlock owner nested lines rest
    else if 0 < nested then
      readBlock owner (if Text.endsWith '\x7b' s.text then nested + 1 else nested) lines rest
    else if Text.startsWith '|' s.text then
      readBlock owner 0 (MemberLine.extendLast s.text lines) rest
    else if MemberLine.startsMember s.text then
      match beforeBrace? s.text with
      | some head => do
        Logged.warn (.inlineObjectMember owner (Text.trim head))
        readBlock owner 1 (⟨Text.trimEnd head ++ " \x7b\x7d".toList, s.doc⟩ :: lines) rest
      | none => readBlock owner 0 (⟨s.text, s.doc⟩ :: lines) rest
    else readBlock owner 0 lines rest

/-- The alias `expr`, continued by lines that start with `|`, and by any line while the expression
is blank or ends in `|`. An opening brace after a blank expression opens a block. -/
def readAlias (owner : Text) (expr : Text) : List Segment → Logged SourceBody
  | [] => return .alias expr
  | s :: rest =>
    if s.text = ['\x7b'] && Text.blank expr then
      .block <$> readBlock owner 0 [] rest
    else if Text.startsWith '|' s.text || Text.blank expr
        || Text.endsWith '|' (Text.trimEnd expr) then
      readAlias owner (if expr = [] then s.text else expr ++ ' ' :: s.text) rest
    else return .alias expr

/-- The source of the declaration that the section holds. -/
def read (s : Section) : Logged Source := do
  let body ← match s.header.aliasExpr? with
    | none => .block <$> readBlock s.header.name 0 [] s.body
    | some expr => readAlias s.header.name expr s.body
  return ⟨s.header.name, s.line, body⟩

end Section

/-! ## The sources of a text -/

namespace Source

/-- Puts a source in the place of the one with its name, or at the end. -/
def put (source : Source) : List Source → List Source
  | [] => [source]
  | s :: rest => if s.name = source.name then source :: rest else s :: put source rest

/-- A second declaration of a name is refused or replaces the first. -/
def checkDuplicate (policy : DuplicatePolicy) (found : List Source) (s : Section) : Logged Unit :=
  match found.find? (·.name = s.header.name) with
  | none => return ()
  | some earlier =>
    match policy with
    | .reject => Logged.fail (.duplicateDeclaration s.header.name)
    | .lastWins => Logged.warn (.duplicateDeclaration s.header.name earlier.line s.line)

/-- Reads the sections one after another, with `found` the sources read before. -/
def collect (policy : DuplicatePolicy) (found : List Source) : List Section → Logged (List Source)
  | [] => return found
  | s :: rest => do
    checkDuplicate policy found s
    let source ← s.read
    collect policy (put source found) rest

def isBlankAlias (source : Source) : Bool :=
  match source.body with
  | .alias expr => Text.blank expr
  | .block _ => false

/-- Leaves out the aliases that never received an expression. -/
def dropBlankAliases (found : List Source) : Logged (List Source) :=
  ⟨(found.filter isBlankAlias).map fun s => .blankAlias s.name,
    .ok (found.filter fun s => !s.isBlankAlias)⟩

def scan (policy : DuplicatePolicy) (t : Text) : Logged (List Source) := do
  let found ← collect policy [] (Section.ofSegments (Segment.cut t))
  let kept ← dropBlankAliases found
  if kept = [] then Logged.fail .noDeclarations else return kept

end Source

end InterfaceForms

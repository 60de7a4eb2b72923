import InterfaceForms.Expression.Quoting

/-!
# Bracket nesting in a type expression

A separator parts an expression only at its top level: outside literals and where as many
brackets have been closed as opened. The four kinds of brackets are counted together, and the
count may fall below zero.

* `Text.intercalate_splitTop`: the parts with the separator between them are the text.
* `Text.cutTop?_eq_some`: the cut at the first separator gives back the text.
-/

namespace InterfaceForms

/-- How much deeper a character leads into brackets. -/
def bracketDelta (c : Char) : Int :=
  if c = '<' || c = '(' || c = '[' || c = '\x7b' then 1
  else if c = '>' || c = ')' || c = ']' || c = '\x7d' then -1
  else 0

structure Nesting where
  quoting : Quoting
  depth : Int
  deriving DecidableEq, Repr

namespace Nesting

def start : Nesting := ⟨.start, 0⟩

/-- Outside literals and brackets. -/
def top (n : Nesting) : Bool := !n.quoting.inside && n.depth = 0

def step (n : Nesting) (c : Char) : Nesting :=
  ⟨n.quoting.step c, if n.quoting.inside then n.depth else n.depth + bracketDelta c⟩

end Nesting

namespace Text

/-- The parts of the text between the separators read at the top level from `n` on. -/
def splitFrom (sep : Char) (n : Nesting) : Text → List Text
  | [] => [[]]
  | c :: t =>
    if n.top && c = sep then [] :: splitFrom sep (n.step c) t
    else (splitFrom sep (n.step c) t).modifyHead (c :: ·)

def splitTop (sep : Char) (t : Text) : List Text := splitFrom sep .start t

/-- The text before the first separator read at the top level from `n` on, and the text after
it. -/
def cutFrom? (sep : Char) (n : Nesting) : Text → Option (Text × Text)
  | [] => none
  | c :: t =>
    if n.top && c = sep then some ([], t)
    else (cutFrom? sep (n.step c) t).map fun (left, right) => (c :: left, right)

def cutTop? (sep : Char) (t : Text) : Option (Text × Text) := cutFrom? sep .start t

/-- The text before the `>` that closes an angle bracket opened just before, and the text after
it. Only angle brackets count, `depth` of which are open besides; literals are skipped. -/
def closeAngle? (q : Quoting) (depth : Nat) : Text → Option (Text × Text)
  | [] => none
  | c :: t =>
    let further (depth : Nat) :=
      (closeAngle? (q.step c) depth t).map fun (inner, rest) => (c :: inner, rest)
    if q.inside then further depth
    else if c = '<' then further (depth + 1)
    else if c = '>' then
      match depth with
      | 0 => some ([], t)
      | depth + 1 => further depth
    else further depth

/-! ## Nothing is lost -/

theorem splitFrom_ne_nil (sep : Char) (n : Nesting) (t : Text) : splitFrom sep n t ≠ [] := by
  induction t generalizing n with
  | nil => simp [splitFrom]
  | cons c t ih =>
    unfold splitFrom
    split
    · simp
    · simpa [List.modifyHead_eq_nil_iff] using ih _

theorem intercalate_splitFrom (sep : Char) (n : Nesting) (t : Text) :
    [sep].intercalate (splitFrom sep n t) = t := by
  induction t generalizing n with
  | nil => simp [splitFrom, List.intercalate]
  | cons c t ih =>
    have htail := ih (n.step c)
    have hne := splitFrom_ne_nil sep (n.step c) t
    unfold splitFrom
    generalize splitFrom sep (n.step c) t = parts at htail hne
    cases parts with
    | nil => exact absurd rfl hne
    | cons p ps =>
      split
      · rename_i h
        obtain ⟨_, rfl⟩ : n.top = true ∧ c = sep := by simpa using h
        simpa [List.intercalate, List.intersperse] using htail
      · cases ps with
        | nil => simpa [List.intercalate] using htail
        | cons q qs => simpa [List.intercalate, List.intersperse] using htail

theorem intercalate_splitTop (sep : Char) (t : Text) : [sep].intercalate (splitTop sep t) = t :=
  intercalate_splitFrom sep .start t

theorem cutFrom?_eq_some {sep : Char} {n : Nesting} {t left right : Text}
    (h : cutFrom? sep n t = some (left, right)) : t = left ++ sep :: right := by
  induction t generalizing n left with
  | nil => simp [cutFrom?] at h
  | cons c t ih =>
    unfold cutFrom? at h
    split at h
    · rename_i hc
      obtain ⟨_, rfl⟩ : n.top = true ∧ c = sep := by simpa using hc
      simp only [Option.some.injEq, Prod.mk.injEq] at h
      obtain ⟨rfl, rfl⟩ := h
      rfl
    · obtain ⟨⟨left', right'⟩, hc, heq⟩ := Option.map_eq_some_iff.1 h
      simp only [Prod.mk.injEq] at heq
      obtain ⟨rfl, rfl⟩ := heq
      rw [ih hc, List.cons_append]

theorem cutTop?_eq_some {sep : Char} {t left right : Text}
    (h : cutTop? sep t = some (left, right)) : t = left ++ sep :: right :=
  cutFrom?_eq_some h

theorem closeAngle?_eq_some {q : Quoting} {depth : Nat} {t inner rest : Text}
    (h : closeAngle? q depth t = some (inner, rest)) : t = inner ++ '>' :: rest := by
  induction t generalizing q depth inner with
  | nil => simp [closeAngle?] at h
  | cons c t ih =>
    have further {d : Nat} (h : (closeAngle? (q.step c) d t).map
        (fun (inner, rest) => (c :: inner, rest)) = some (inner, rest)) :
        c :: t = inner ++ '>' :: rest := by
      obtain ⟨⟨inner', rest'⟩, hc, heq⟩ := Option.map_eq_some_iff.1 h
      simp only [Prod.mk.injEq] at heq
      obtain ⟨rfl, rfl⟩ := heq
      rw [ih hc, List.cons_append]
    unfold closeAngle? at h
    split at h
    · exact further h
    · split at h
      · exact further h
      · split at h
        · rename_i hc
          obtain rfl : c = '>' := hc
          cases depth with
          | zero =>
            simp only [Option.some.injEq, Prod.mk.injEq] at h
            obtain ⟨rfl, rfl⟩ := h
            rfl
          | succ d => exact further h
        · exact further h

end Text

end InterfaceForms

import InterfaceForms.Proofs.KeptSigns

/-!
# The slashes of a type

No step that reads a type expression cuts a text at a slash, so the slashes of a shape are those of
the expression that it is read from, and an expression with more slashes has another shape.

* `Shape.slashes_ofExpr`: the slashes of a shape are those of the expression.
-/

namespace InterfaceForms

/-! ## The slashes of a text -/

namespace Text

/-- How many slashes there are in a text. -/
def slashes (t : Text) : Nat := t.count '/'

@[simp] theorem slashes_nil : slashes [] = 0 := rfl

@[simp] theorem slashes_append (t u : Text) : slashes (t ++ u) = slashes t + slashes u :=
  List.count_append

theorem slashes_cons {c : Char} (hc : c ≠ '/') (t : Text) : slashes (c :: t) = slashes t :=
  List.count_cons_of_ne hc

theorem slashes_reverse (t : Text) : slashes t.reverse = slashes t := List.count_reverse

theorem slashes_dropWhile {p : Char → Bool} (hp : p '/' = false) (t : Text) :
    slashes (t.dropWhile p) = slashes t :=
  count_dropWhile hp t

@[simp] theorem slashes_trim (t : Text) : slashes (trim t) = slashes t :=
  count_trim (by decide) t

theorem slashes_of_blank {t : Text} (h : blank t = true) : slashes t = 0 :=
  count_of_blank (by decide) h

theorem slashes_dropStart? {start t rest : Text} (hstart : slashes start = 0)
    (h : dropStart? start t = some rest) : slashes rest = slashes t :=
  count_dropStart? hstart h

/-! ## The slashes of parts -/

/-- How many slashes there are in several texts. -/
def slashesOf (ts : List Text) : Nat := slashes ts.flatten

theorem slashesOf_cons (t : Text) (ts : List Text) :
    slashesOf (t :: ts) = slashes t + slashesOf ts :=
  slashes_append t ts.flatten

theorem slashesOf_append (ts us : List Text) :
    slashesOf (ts ++ us) = slashesOf ts + slashesOf us := by
  rw [slashesOf, List.flatten_append, slashes_append]
  rfl

theorem slashesOf_reverse (ts : List Text) : slashesOf ts.reverse = slashesOf ts :=
  ts.reverse_perm.flatten.count_eq '/'

end Text

/-! ## The slashes of a shape -/

open Text

namespace Shape

/-- How many slashes there are in the texts of the shape. -/
def slashes : Shape → Nat
  | .enum values => slashesOf values
  | .union branches => slashesOf (branches.map Branch.text)
  | .record key value => Text.slashes key + Text.slashes value
  | .array element => Text.slashes element
  | .named name => Text.slashes name

theorem slashes_eq (s : Shape) : s.slashes = Text.slashes s.text := by
  cases s with
  | record key value => exact (slashes_append key value).symm
  | _ => rfl

/-- The slashes of a shape are those of the expression. -/
theorem slashes_ofExpr {expr : Text} {s : Shape} (h : ofExpr expr = .ok s) :
    s.slashes = Text.slashes expr := by
  have hslash : '/' ∈ keptSigns := by decide
  rw [slashes_eq, Text.slashes, count_text_ofAlternatives hslash h,
    count_alternatives hslash (by decide), bareExpr, count_stripParens hslash,
    count_dropEndWhile (by decide), count_trim hslash]
  rfl

end Shape

end InterfaceForms

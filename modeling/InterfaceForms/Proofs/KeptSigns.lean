import InterfaceForms.Shape
import InterfaceForms.Proofs.Logged

/-!
# Signs that a shape keeps

What the reader of a type expression leaves out are blanks, quotation marks, brackets, the word
`Record`, the bars and commas at which it cuts and the semicolons at the end. It adds nothing. So
every other slash, semicolon and bar of an expression is found again in the texts of its shape.

* `Shape.count_text_ofSingle`: an expression that is no union keeps all of them.
* `Shape.count_text_ofAlternatives`: alternatives keep all of them.
-/

namespace InterfaceForms

namespace Text

/-- The signs that are kept wherever no text is cut at them. -/
def keptSigns : Text := ['/', ';', '|']

theorem isBlank_of_kept : ∀ {c : Char}, c ∈ keptSigns → isBlank c = false := by decide

theorem not_isQuoteMark_of_kept : ∀ {c : Char}, c ∈ keptSigns → isQuoteMark c = false := by decide

theorem ne_of_kept {c d : Char} (hc : c ∈ keptSigns) (hd : d ∉ keptSigns) : d ≠ c := by
  rintro rfl
  exact hd hc

variable {c : Char} {t : Text}

theorem count_dropWhile {p : Char → Bool} (hp : p c = false) (t : Text) :
    (t.dropWhile p).count c = t.count c := by
  induction t with
  | nil => rfl
  | cons d t ih =>
    rw [List.dropWhile_cons]
    split
    · rename_i hd
      have hne : d ≠ c := by
        rintro rfl
        rw [hp] at hd
        cases hd
      rw [ih, List.count_cons_of_ne hne]
    · rfl

theorem count_dropEndWhile {p : Char → Bool} (hp : p c = false) (t : Text) :
    (dropEndWhile p t).count c = t.count c := by
  rw [dropEndWhile, List.count_reverse, count_dropWhile hp, List.count_reverse]

theorem count_trim (hc : c ∈ keptSigns) (t : Text) : (trim t).count c = t.count c := by
  have hp := isBlank_of_kept hc
  rw [trim, trimEnd, count_dropEndWhile hp, trimStart, count_dropWhile hp]

theorem count_of_blank (hc : c ∈ keptSigns) (h : blank t = true) : t.count c = 0 := by
  refine List.count_eq_zero.2 fun hmem => ?_
  have hblank := List.all_eq_true.1 h c hmem
  rw [isBlank_of_kept hc] at hblank
  cases hblank

theorem count_stripParens (hc : c ∈ keptSigns) (t : Text) :
    (stripParens t).count c = t.count c := by
  fun_induction stripParens t with
  | case1 t inner h ih =>
    have hopen : '(' ≠ c := ne_of_kept hc (by decide)
    have hclose : ')' ≠ c := ne_of_kept hc (by decide)
    rw [ih, ← count_trim hc t, eq_of_insideParens? h, List.cons_append, List.count_cons_of_ne hopen,
      List.count_append, List.count_cons_of_ne hclose, List.count_nil, Nat.add_zero]
  | case2 t h => exact count_trim hc t

theorem count_unquote? (hc : c ∈ keptSigns) {v : Text} (h : unquote? t = some v) :
    v.count c = t.count c := by
  cases t with
  | nil => cases h
  | cons mark t =>
    simp only [unquote?, Option.ite_none_right_eq_some, Bool.and_eq_true, decide_eq_true_eq,
      Option.some.injEq] at h
    obtain ⟨⟨hmark, hlast⟩, rfl⟩ := h
    have hne : mark ≠ c := by
      rintro rfl
      rw [not_isQuoteMark_of_kept hc] at hmark
      cases hmark
    obtain ⟨u, rfl⟩ := List.getLast?_eq_some_iff.1 hlast
    rw [List.dropLast_concat, List.count_cons_of_ne hne, List.count_append,
      List.count_cons_of_ne hne, List.count_nil, Nat.add_zero]

theorem count_dropStart? {start rest : Text} (hstart : start.count c = 0)
    (h : dropStart? start t = some rest) : rest.count c = t.count c := by
  rw [dropStart?_eq_some.1 h, List.count_append, hstart, Nat.zero_add]

theorem count_dropArrayMark? (hc : c ∈ keptSigns) {element : Text}
    (h : dropArrayMark? t = some element) : element.count c = t.count c := by
  have hopen : '[' ≠ c := ne_of_kept hc (by decide)
  have hclose : ']' ≠ c := ne_of_kept hc (by decide)
  unfold dropArrayMark? at h
  split at h
  · rename_i rest hreverse
    obtain rfl := Option.some.inj h
    rw [← List.count_reverse (l := t), hreverse, List.count_cons_of_ne hclose,
      List.count_cons_of_ne hopen, List.count_reverse]
  · cases h

/-! ## Parts -/

theorem count_splitFrom {sep : Char} (hsep : sep ≠ c) (n : Nesting) (t : Text) :
    (splitFrom sep n t).flatten.count c = t.count c := by
  induction t generalizing n with
  | nil => rfl
  | cons d t ih =>
    unfold splitFrom
    split
    · rename_i hd
      obtain ⟨-, rfl⟩ : n.top = true ∧ d = sep := by simpa using hd
      rw [List.flatten_cons, List.nil_append, ih, List.count_cons_of_ne hsep]
    · obtain ⟨part, parts, hparts⟩ := List.exists_cons_of_ne_nil (splitFrom_ne_nil sep (n.step d) t)
      have hrest := ih (n.step d)
      rw [hparts] at hrest
      rw [hparts, List.modifyHead_cons, List.flatten_cons, List.cons_append, ← List.flatten_cons,
        List.count_cons, List.count_cons, hrest]

theorem count_flatten_congr {α : Type} {f g : α → Text} {l : List α}
    (h : ∀ a ∈ l, (f a).count c = (g a).count c) :
    (l.map f).flatten.count c = (l.map g).flatten.count c := by
  induction l with
  | nil => rfl
  | cons a l ih =>
    obtain ⟨ha, hl⟩ := List.forall_mem_cons.1 h
    rw [List.map_cons, List.map_cons, List.flatten_cons, List.flatten_cons, List.count_append,
      List.count_append, ha, ih hl]

theorem count_alternatives (hc : c ∈ keptSigns) (hbar : '|' ≠ c) (t : Text) :
    (alternatives t).flatten.count c = t.count c := by
  have hempty : ∀ ts : List Text, (ts.filter (· ≠ [])).flatten = ts.flatten := by
    intro ts
    induction ts with
    | nil => rfl
    | cons part ts ih =>
      rw [List.filter_cons]
      split
      · rw [List.flatten_cons, List.flatten_cons, ih]
      · rename_i hpart
        obtain rfl : part = [] := by simpa using hpart
        rw [ih, List.flatten_cons, List.nil_append]
  have htrim := count_flatten_congr (l := splitTop '|' t) (f := trim) (g := id)
    fun part _ => count_trim hc part
  rw [List.map_id] at htrim
  rw [alternatives, hempty, htrim]
  exact count_splitFrom hbar .start t

end Text

/-! ## Shapes -/

open Text

/-- What is written in the branch, beside the name of a primitive type. -/
def Branch.text : Branch → Text
  | .primitive _ => []
  | .literal value => value
  | .reference expr => expr

/-- What is written in the shape, one text after another. -/
def Shape.text : Shape → Text
  | .enum values => values.flatten
  | .union branches => (branches.map Branch.text).flatten
  | .record key value => key ++ value
  | .array element => element
  | .named name => name

variable {c : Char}

theorem Branch.count_text_ofExpr (hc : c ∈ keptSigns) (expr : Text) :
    (ofExpr expr).text.count c = expr.count c := by
  unfold ofExpr
  split
  · rename_i value hvalue
    rw [text, count_trim hc, count_unquote? hc hvalue]
  split
  · rename_i type htype
    have hnone : ∀ type : Primitive, ∀ c ∈ keptSigns, type.name.count c = 0 := by
      intro type
      cases type
      all_goals decide
    rw [text, ← Primitive.ofName?_eq_some.1 htype, hnone type c hc]
    rfl
  · rw [text, count_stripParens hc]

namespace Shape

theorem count_text_ofArrayOrName (hc : c ∈ keptSigns) (expr : Text) :
    (ofArrayOrName expr).text.count c = expr.count c := by
  unfold ofArrayOrName
  split
  · rename_i element helement
    rw [text, count_stripParens hc, count_dropArrayMark? hc helement]
  · rw [text]

theorem count_text_ofRecordArguments? (hc : c ∈ keptSigns) {args : Text} {s : Shape}
    (h : ofRecordArguments? args = some s) : s.text.count c = args.count c := by
  have hcomma : ',' ≠ c := ne_of_kept hc (by decide)
  unfold ofRecordArguments? at h
  split at h
  · rename_i key value hcut
    split at h
    · cases h
    · obtain rfl := Option.some.inj h
      rw [text, List.count_append, count_trim hc, count_trim hc, cutTop?_eq_some hcut,
        List.count_append, List.count_cons_of_ne hcomma]
  · cases h

theorem count_text_ofSingle (hc : c ∈ keptSigns) {expr : Text} {s : Shape}
    (h : ofSingle expr = .ok s) : s.text.count c = expr.count c := by
  have hclosing : '>' ≠ c := ne_of_kept hc (by decide)
  have hword : ∀ c ∈ keptSigns, "Record<".toList.count c = 0 := by decide
  unfold ofSingle at h
  split at h
  · cases h
    exact count_text_ofArrayOrName hc expr
  · rename_i args hstart
    split at h
    · cases h
    · rename_i args rest hclose
      split at h
      · rename_i hblank
        split at h
        · rename_i shape hargs
          cases h
          rw [count_text_ofRecordArguments? hc hargs, ← count_dropStart? (hword c hc) hstart,
            closeAngle?_eq_some hclose, List.count_append, List.count_cons_of_ne hclosing,
            count_of_blank hc hblank, Nat.add_zero]
        · cases h
      · cases h
        exact count_text_ofArrayOrName hc expr

theorem error_ofSingle {expr : Text} {cause : ParseError} (h : ofSingle expr = .error cause) :
    cause = .malformedRecord expr := by
  unfold ofSingle at h
  repeat' split at h
  all_goals
    cases h
  all_goals rfl

theorem count_unquoted (hc : c ∈ keptSigns) {exprs values : List Text}
    (h : exprs.mapM unquote? = some values) :
    (values.map trim).flatten.count c = exprs.flatten.count c := by
  induction exprs generalizing values with
  | nil =>
    obtain rfl := Option.some.inj h
    rfl
  | cons expr exprs ih =>
    simp only [List.mapM_cons, Option.bind_eq_bind, Option.bind_eq_some_iff] at h
    obtain ⟨value, hvalue, values, hvalues, h⟩ := h
    obtain rfl := Option.some.inj h
    rw [List.map_cons, List.flatten_cons, List.flatten_cons, List.count_append, List.count_append,
      ih hvalues, count_trim hc, count_unquote? hc hvalue]

theorem count_text_ofAlternatives (hc : c ∈ keptSigns) {exprs : List Text} {s : Shape}
    (h : ofAlternatives exprs = .ok s) : s.text.count c = exprs.flatten.count c := by
  unfold ofAlternatives at h
  split at h
  · cases h
    rfl
  · rename_i expr
    rw [List.flatten_cons, List.flatten_nil, List.append_nil]
    split at h
    · rename_i value hvalue
      cases h
      rw [text, List.flatten_cons, List.flatten_nil, List.append_nil, count_trim hc,
        count_unquote? hc hvalue]
    · rw [count_text_ofSingle hc h, count_stripParens hc]
  · split at h
    · rename_i values hvalues
      cases h
      exact count_unquoted hc hvalues
    · cases h
      have hall := count_flatten_congr (l := exprs) (f := fun expr => (Branch.ofExpr expr).text)
        (g := id) fun expr _ => Branch.count_text_ofExpr hc expr
      rw [List.map_id] at hall
      rw [text, List.map_map]
      exact hall

/-- What is written in the shape, or in the expression that is no record. -/
def written : Except ParseError Shape → Text
  | .ok s => s.text
  | .error (.malformedRecord expr) => expr
  | .error _ => []

theorem count_written_ofSingle (hc : c ∈ keptSigns) (expr : Text) :
    (written (ofSingle expr)).count c = expr.count c := by
  cases h : ofSingle expr with
  | ok s => exact count_text_ofSingle hc h
  | error cause =>
    rw [error_ofSingle h]
    rfl

theorem count_written_ofAlternatives (hc : c ∈ keptSigns) (exprs : List Text) :
    (written (ofAlternatives exprs)).count c = exprs.flatten.count c := by
  cases h : ofAlternatives exprs with
  | ok s => exact count_text_ofAlternatives hc h
  | error cause =>
    unfold ofAlternatives at h
    split at h
    · cases h
    · rename_i expr
      split at h
      · cases h
      · rw [error_ofSingle h, written, count_stripParens hc, List.flatten_singleton]
    · split at h
      · cases h
      · cases h

/-- Only the semicolons at the end of an expression are left out. -/
theorem count_semicolons_ofExpr (expr : Text) :
    (written (ofExpr expr)).count ';' = (dropEndWhile (· = ';') (trim expr)).count ';' := by
  have hsemi : ';' ∈ keptSigns := by decide
  rw [ofExpr, count_written_ofAlternatives hsemi, count_alternatives hsemi (by decide), bareExpr,
    count_stripParens hsemi]

end Shape

end InterfaceForms

import InterfaceForms.Proofs.Calls
import InterfaceForms.Proofs.CommentedMembers
import InterfaceForms.Proofs.Slices

/-!
# Checked reading of type expressions

A type expression can be read by cutting it at positions that were found before. Every reading of
this module looks whether the positions are in order, and it gives what the reading without
positions gives: no slice is taken whose bounds are wrong.

* `Text.unquoteAt_eq`, `Text.stripAt_eq`: a quoted text and a text in parentheses are cut out
  between their ends.
* `Shape.readAt_eq`: the shape of an expression.
-/

namespace InterfaceForms

namespace Text

variable {t inner rest before : Text} {c : Char}

theorem sliceFrom_after (hc : c.utf8Size = 1) (before rest : Text) :
    sliceFrom (size before + 1) (before ++ c :: rest) = .ok rest := by
  have h := sliceFrom_append (before ++ [c]) rest
  rwa [List.append_assoc, size_append, size_cons, hc] at h

/-! ## Quotes and parentheses -/

/-- The text between two equal quotation marks, cut out between the first and the last character. -/
def unquoteAt : Text → Except Trap (Option Text)
  | [] => return none
  | first :: rest => do
    if isQuoteMark first && rest.getLast? = some first then
      let value ← slice 1 (← Checked.minus (size (first :: rest)) 1) (first :: rest)
      return some value
    else return none

theorem utf8Size_quoteMark (h : isQuoteMark c = true) : c.utf8Size = 1 := by
  simp only [isQuoteMark, Bool.or_eq_true, decide_eq_true_eq] at h
  rcases h with (rfl | rfl) | rfl <;> rfl

theorem unquoteAt_eq (t : Text) : unquoteAt t = .ok (unquote? t) := by
  cases t with
  | nil => rfl
  | cons first rest =>
    rw [unquoteAt, unquote?]
    split
    · rename_i h
      obtain ⟨hmark, hlast⟩ : isQuoteMark first = true ∧ rest.getLast? = some first := by
        simpa using h
      obtain ⟨value, rfl⟩ := List.getLast?_eq_some_iff.1 hlast
      have hsize := utf8Size_quoteMark hmark
      rw [← bind_assoc, slice_inside hsize hsize, List.dropLast_concat]
      rfl
    · rfl

/-- The texts between quotation marks, if each text has them. -/
def unquoteAllAt : List Text → Except Trap (Option (List Text))
  | [] => return some []
  | t :: ts => do
    match ← unquoteAt t with
    | none => return none
    | some value => return (← unquoteAllAt ts).map (value :: ·)

theorem unquoteAllAt_eq (ts : List Text) : unquoteAllAt ts = .ok (ts.mapM unquote?) := by
  induction ts with
  | nil => rfl
  | cons t ts ih =>
    rw [unquoteAllAt, unquoteAt_eq, ih, List.mapM_cons]
    cases unquote? t with
    | none => rfl
    | some value => cases ts.mapM unquote? <;> rfl

/-- The text inside a pair of parentheses that wraps the whole text, cut out between the first and
the last character. -/
def insideAt (t : Text) : Except Trap (Option Text) := do
  if startsWith '(' t && endsWith ')' t then
    let inner ← slice 1 (← Checked.minus (size t) 1) t
    return if staysOpen 0 inner then some inner else none
  else return none

theorem insideAt_eq (t : Text) : insideAt t = .ok (insideParens? t) := by
  rw [insideAt]
  split
  · rename_i h
    obtain ⟨hstart, hend⟩ : t.head? = some '(' ∧ t.getLast? = some ')' := by
      simpa [startsWith, endsWith] using h
    obtain ⟨u, rfl⟩ := List.head?_eq_some_iff.1 hstart
    cases u with
    | nil => cases hend
    | cons d u =>
      rw [List.getLast?_cons_cons] at hend
      obtain ⟨inner, hinner⟩ := List.getLast?_eq_some_iff.1 hend
      rw [hinner, ← bind_assoc, slice_inside rfl rfl, insideParens?, List.dropLast_concat]
      simp
  · rename_i h
    cases t with
    | nil => rfl
    | cons c t =>
      rw [insideParens?, if_neg]
      · rfl
      · intro hinside
        apply h
        obtain ⟨⟨rfl, hend⟩, -⟩ : (c = '(' ∧ t.getLast? = some ')') ∧ staysOpen 0 t.dropLast := by
          simpa using hinside
        obtain ⟨inner, rfl⟩ := List.getLast?_eq_some_iff.1 hend
        simp [startsWith, endsWith, List.getLast?_cons]

theorem length_lt_of_insideParens? (h : insideParens? (trim t) = some inner) :
    inner.length < t.length := by
  have hlen := length_trim_le t
  rw [eq_of_insideParens? h] at hlen
  simp only [List.cons_append, List.length_cons, List.length_append] at hlen
  omega

/-- Takes off the blanks and wrapping parentheses on the outside, as often as there are some. -/
def stripAt (t : Text) : Except Trap Text :=
  match _h : insideAt (trim t) with
  | .error trap => .error trap
  | .ok none => .ok (trim t)
  | .ok (some inner) => stripAt inner
termination_by t.length
decreasing_by
  rw [insideAt_eq] at _h
  exact length_lt_of_insideParens? (Except.ok.inj _h)

theorem stripAt_step (t : Text) : stripAt t = match insideAt (trim t) with
    | .error trap => .error trap
    | .ok none => .ok (trim t)
    | .ok (some inner) => stripAt inner := by
  rw [stripAt]
  split
  all_goals
    rename_i h
    rw [h]

theorem stripAt_eq (t : Text) : stripAt t = .ok (stripParens t) := by
  fun_induction stripParens t with
  | case1 t inner h ih =>
    rw [stripAt_step, insideAt_eq, h]
    exact ih
  | case2 t h => rw [stripAt_step, insideAt_eq, h]

theorem trim_trim (t : Text) : trim (trim t) = trim t := by
  cases h : blank t with
  | true => rw [trim_eq_nil.2 h]; rfl
  | false => exact (solid_trim h).trim

theorem stripParens_trim (t : Text) : stripParens (trim t) = stripParens t := by
  cases h : insideParens? (trim t) with
  | none => rw [stripParens_of_bare h, stripParens_of_bare (by rwa [trim_trim]), trim_trim]
  | some inner => rw [stripParens_of_inside h, stripParens_of_inside (by rwa [trim_trim])]

end Text

/-! ## Shapes -/

/-- The alternative of a union. -/
def Branch.readAt (expr : Text) : Except Trap Branch := do
  match ← Text.unquoteAt expr with
  | some value => return .literal (Text.trim value)
  | none =>
    match Primitive.ofName? expr with
    | some type => return .primitive type
    | none => return .reference (← Text.stripAt expr)

theorem Branch.readAt_eq (expr : Text) : readAt expr = .ok (ofExpr expr) := by
  rw [readAt, ofExpr, Text.unquoteAt_eq]
  cases Text.unquote? expr with
  | some value => rfl
  | none =>
    cases hprim : Primitive.ofName? expr with
    | some type => rfl
    | none => simp only [Text.stripAt_eq]; rfl

namespace Shape

def arrayOrNameAt (expr : Text) : Except Trap Shape := do
  match Text.dropArrayMark? expr with
  | some element => return .array (← Text.stripAt (Text.trim element))
  | none => return .named expr

theorem arrayOrNameAt_eq (expr : Text) : arrayOrNameAt expr = .ok (ofArrayOrName expr) := by
  rw [arrayOrNameAt, ofArrayOrName]
  cases Text.dropArrayMark? expr with
  | some element =>
    dsimp only
    rw [Text.stripAt_eq, Text.stripParens_trim]
    rfl
  | none => rfl

def malformed (expr : Text) : Checked Shape :=
  liftM (Logged.fail (.malformedRecord expr) : Logged Shape)

/-- The record with the type arguments that stand before the position `close` in `args`. -/
def recordAt (expr args : Text) (close : Nat) : Checked Shape := do
  let args ← Text.sliceTo close args
  match Text.firstAt? ',' args with
  | none => malformed expr
  | some comma =>
    let key := Text.trim (← Text.sliceTo comma args)
    let value := Text.trim (← Text.sliceFrom (comma + 1) args)
    if key = [] || value = [] then malformed expr else return .record key value

/-- The shape of an expression that is no union and no literal. -/
def singleAt (expr : Text) : Checked Shape := do
  match Text.dropStart? "Record<".toList expr with
  | none => arrayOrNameAt expr
  | some args =>
    match ← Text.closing? args with
    | none => malformed expr
    | some close =>
      if Text.trim (← Text.sliceFrom (close + 1) args) = [] then recordAt expr args close
      else arrayOrNameAt expr

theorem recordAt_eq (expr args rest : Text) :
    recordAt expr (args ++ '>' :: rest) (Text.size args) =
      match ofRecordArguments? args with
      | some shape => pure shape
      | none => malformed expr := by
  rw [recordAt, Text.sliceTo_append, Checked.ok_bind, Text.firstAt?_eq, ofRecordArguments?]
  cases hcut : Text.cutTop? ',' args with
  | none => rfl
  | some parts =>
    obtain ⟨key, value⟩ := parts
    obtain rfl := Text.cutTop?_eq_some hcut
    dsimp only [Option.map_some]
    rw [Text.sliceTo_append, Checked.ok_bind, Text.sliceFrom_after rfl, Checked.ok_bind]
    simp only [Text.trim_eq_nil, Bool.decide_eq_true]
    split
    · rfl
    · rfl

theorem singleAt_eq (expr : Text) : singleAt expr = liftM (Logged.ofExcept (ofSingle expr)) := by
  rw [singleAt, ofSingle]
  cases Text.dropStart? "Record<".toList expr with
  | none =>
    dsimp only
    rw [arrayOrNameAt_eq]
    rfl
  | some args =>
    dsimp only
    rw [Text.closing?_eq, Checked.ok_bind]
    cases hclose : Text.closeAngle? .start 0 args with
    | none => rfl
    | some parts =>
      obtain ⟨inner, rest⟩ := parts
      obtain rfl := Text.closeAngle?_eq_some hclose
      dsimp only [Option.map_some]
      rw [Text.sliceFrom_after rfl, Checked.ok_bind, arrayOrNameAt_eq, recordAt_eq]
      simp only [Text.trim_eq_nil]
      split
      · cases ofRecordArguments? inner with
        | none => rfl
        | some shape => rfl
      · rfl

/-- The shape of an expression with the given alternatives, which is a union or an enum if there
are several or the only one is quoted. -/
def alternativesAt : List Text → Checked Shape
  | [] => singleAt []
  | [expr] => do
    match ← Text.unquoteAt expr with
    | some value => return .enum [Text.trim value]
    | none => singleAt (← Text.stripAt expr)
  | exprs => do
    match ← Text.unquoteAllAt exprs with
    | some values => return .enum (values.map Text.trim)
    | none => return .union (← exprs.mapM fun expr => Branch.readAt expr)

theorem alternativesAt_eq (exprs : List Text) :
    alternativesAt exprs = liftM (Logged.ofExcept (ofAlternatives exprs)) := by
  rcases exprs with _ | ⟨expr, _ | ⟨second, rest⟩⟩
  · rfl
  · rw [alternativesAt, ofAlternatives, Text.unquoteAt_eq, Checked.ok_bind, Text.stripAt_eq]
    cases Text.unquote? expr with
    | some value => rfl
    | none => exact singleAt_eq _
  · have hbranches : ((expr :: second :: rest).mapM fun expr =>
        (Branch.readAt expr : Checked Branch)) =
          pure ((expr :: second :: rest).map Branch.ofExpr) := by
      rw [← List.mapM_pure]
      exact mapM_congr_of_mem fun expr _ => congrArg liftM (Branch.readAt_eq expr)
    simp only [alternativesAt, ofAlternatives]
    rw [Text.unquoteAllAt_eq, Checked.ok_bind, hbranches]
    cases (expr :: second :: rest).mapM Text.unquote? with
    | some values => rfl
    | none => rfl

/-- The shape of an expression. -/
def readAt (expr : Text) : Checked Shape := do
  let expr ← Text.stripAt (Text.trim (Text.dropEndWhile (· = ';') (Text.trim expr)))
  let alternatives := (← Text.partsAt '|' expr).map Text.trim
  alternativesAt (alternatives.filter (· ≠ []))

theorem readAt_eq (expr : Text) : readAt expr = read expr := by
  rw [readAt, Text.stripAt_eq, Text.stripParens_trim, Checked.ok_bind, Text.partsAt_eq,
    Checked.ok_bind, alternativesAt_eq]
  rfl

end Shape

end InterfaceForms

import InterfaceForms.Shape

/-!
# Type trees

A type expression read to its end: the expressions inside a shape are read in turn, and every leaf
is a list of literals, a name, or the cause why an expression could not be read. Such a cause is
no failure yet: it counts only if the compiler comes to that place.

* `TypeTree.ofExpr_eq`: the tree of an expression is the tree of its shape.
-/

namespace InterfaceForms

inductive TypeTree
  | literals (values : List Text)
  | union (branches : List TypeTree)
  | record (value : TypeTree)
  | array (item : TypeTree)
  | named (name : Text)
  | malformed (cause : ParseError)
  deriving Repr

/-! ## Expressions inside a shape are shorter -/

namespace Text

theorem length_of_mem_splitFrom {sep : Char} {n : Nesting} {t part : Text}
    (h : part ∈ splitFrom sep n t) :
    part.length + (splitFrom sep n t).length ≤ t.length + 1 := by
  induction t generalizing n part with
  | nil =>
    simp only [splitFrom, List.mem_singleton] at h
    subst h
    simp [splitFrom]
  | cons c t ih =>
    have hne := splitFrom_ne_nil sep (n.step c) t
    unfold splitFrom at h ⊢
    generalize hparts : splitFrom sep (n.step c) t = parts at h hne ⊢
    have ih' : ∀ p ∈ parts, p.length + parts.length ≤ t.length + 1 := by
      intro p hp
      rw [← hparts] at hp ⊢
      exact ih hp
    cases parts with
    | nil => exact absurd rfl hne
    | cons p ps =>
      have hp := ih' p List.mem_cons_self
      split at h
      · rename_i hcut
        rw [if_pos hcut]
        rcases List.mem_cons.1 h with rfl | h
        · simp only [List.length_cons, List.length_nil] at hp ⊢
          omega
        · have := ih' part h
          simp only [List.length_cons] at this ⊢
          omega
      · rename_i hcut
        rw [if_neg hcut]
        simp only [List.modifyHead_cons, List.mem_cons] at h
        simp only [List.modifyHead_cons, List.length_cons] at hp ⊢
        rcases h with rfl | h
        · simp only [List.length_cons]
          omega
        · have := ih' part (List.mem_cons_of_mem _ h)
          simp only [List.length_cons] at this
          omega

theorem length_of_mem_alternatives {expr alternative : Text}
    (h : alternative ∈ alternatives expr) (hlen : 2 ≤ (alternatives expr).length) :
    alternative.length < expr.length := by
  unfold alternatives at h hlen
  obtain ⟨part, hpart, rfl⟩ := List.mem_map.1 (List.mem_filter.1 h).1
  have hsplit := length_of_mem_splitFrom hpart
  have hfilter := Nat.le_trans hlen (List.length_filter_le _ _)
  have htrim := length_trim_le part
  rw [List.length_map, splitTop] at hfilter
  omega

theorem length_bareExpr_le (expr : Text) : (Shape.bareExpr expr).length ≤ expr.length :=
  Nat.le_trans (length_stripParens_le _)
    (Nat.le_trans (length_dropEndWhile_le _ _) (length_trim_le _))

theorem length_of_mem_alternatives_singleton {expr alternative : Text}
    (h : alternatives expr = [alternative]) : alternative.length ≤ expr.length := by
  have hmem : alternative ∈ alternatives expr := by rw [h]; exact List.mem_singleton_self _
  unfold alternatives at hmem
  obtain ⟨part, hpart, rfl⟩ := List.mem_map.1 (List.mem_filter.1 hmem).1
  have hsplit := length_of_mem_splitFrom hpart
  have hne := List.length_pos_iff.2 (splitFrom_ne_nil '|' .start expr)
  have htrim := length_trim_le part
  omega

theorem length_of_dropArrayMark? {expr element : Text} (h : dropArrayMark? expr = some element) :
    element.length + 2 = expr.length := by
  unfold dropArrayMark? at h
  split at h
  · rename_i e he
    obtain rfl := Option.some.inj h
    have := congrArg List.length he
    simpa using this.symm
  · cases h

end Text

/-- The expression inside an alternative, if it is neither primitive nor quoted. -/
def Branch.inner? : Branch → Option Text
  | .reference expr => some expr
  | _ => none

theorem Branch.length_inner?_ofExpr {expr e : Text} (h : (Branch.ofExpr expr).inner? = some e) :
    e.length ≤ expr.length := by
  unfold Branch.ofExpr at h
  split at h
  · cases h
  · split at h
    · cases h
    · obtain rfl := Option.some.inj h
      exact Text.length_stripParens_le expr

namespace Shape

/-- The expressions inside a shape that the compiler reads. The key type of a record is not one of
them. -/
def inner : Shape → List Text
  | .enum _ => []
  | .union branches => branches.filterMap Branch.inner?
  | .record _ value => [value]
  | .array element => [element]
  | .named _ => []

theorem inner_ofArrayOrName {expr e : Text} (h : e ∈ (ofArrayOrName expr).inner) :
    e.length < expr.length := by
  unfold ofArrayOrName at h
  split at h
  · rename_i element he
    obtain rfl := List.mem_singleton.1 h
    have := Text.length_of_dropArrayMark? he
    have := Text.length_stripParens_le element
    omega
  · cases h

theorem inner_ofSingle {expr e : Text} {s : Shape} (h : ofSingle expr = .ok s)
    (he : e ∈ s.inner) : e.length < expr.length := by
  unfold ofSingle at h
  split at h
  · obtain rfl := Except.ok.inj h
    exact inner_ofArrayOrName he
  · rename_i args hargs
    have hargs := Text.dropStart?_eq_some.1 hargs
    split at h
    · cases h
    · rename_i args' rest hclose
      have hclose := Text.closeAngle?_eq_some hclose
      split at h
      · split at h
        · rename_i shape hshape
          obtain rfl := Except.ok.inj h
          unfold ofRecordArguments? at hshape
          split at hshape
          · rename_i key value hcut
            have hcut := Text.cutTop?_eq_some hcut
            split at hshape
            · cases hshape
            · obtain rfl := Option.some.inj hshape
              obtain rfl := List.mem_singleton.1 he
              have := Text.length_trim_le value
              subst hargs hclose hcut
              simp only [List.length_append, List.length_cons]
              omega
          · cases hshape
        · cases h
      · obtain rfl := Except.ok.inj h
        exact inner_ofArrayOrName he

theorem inner_ofAlternatives {exprs : List Text} {e : Text} {s : Shape}
    (h : ofAlternatives exprs = .ok s) (he : e ∈ s.inner) :
    (∃ expr, exprs = [expr] ∧ e.length < expr.length) ∨
      (2 ≤ exprs.length ∧ ∃ expr ∈ exprs, e.length ≤ expr.length) := by
  unfold ofAlternatives at h
  split at h
  · obtain rfl := Except.ok.inj h
    cases he
  · rename_i expr
    split at h
    · obtain rfl := Except.ok.inj h
      cases he
    · have := inner_ofSingle h he
      have := Text.length_stripParens_le expr
      exact .inl ⟨expr, rfl, by omega⟩
  · rename_i hnil hone
    split at h
    · obtain rfl := Except.ok.inj h
      cases he
    · obtain rfl := Except.ok.inj h
      obtain ⟨b, hb, hbe⟩ := List.mem_filterMap.1 he
      obtain ⟨expr, hexpr, rfl⟩ := List.mem_map.1 hb
      refine .inr ⟨?_, expr, hexpr, Branch.length_inner?_ofExpr hbe⟩
      match exprs, hnil, hone with
      | [], hnil, _ => exact absurd rfl hnil
      | [expr], _, hone => exact absurd rfl (hone expr)
      | _ :: _ :: _, _, _ => simp

theorem length_lt_of_mem_inner {expr e : Text} {s : Shape} (h : ofExpr expr = .ok s)
    (he : e ∈ s.inner) : e.length < expr.length := by
  have hbare := Text.length_bareExpr_le expr
  rcases inner_ofAlternatives h he with ⟨alternative, hone, hlt⟩ | ⟨htwo, alternative, hmem, hle⟩
  · have := Text.length_of_mem_alternatives_singleton hone
    omega
  · have := Text.length_of_mem_alternatives hmem htwo
    omega

end Shape

/-! ## Reading to the end -/

namespace TypeTree

def ofExpr (expr : Text) : TypeTree :=
  match _h : Shape.ofExpr expr with
  | .error cause => .malformed cause
  | .ok (.enum values) => .literals values
  | .ok (.union branches) => .union (branches.attach.map fun
    | ⟨.primitive type, _⟩ => .named type.name
    | ⟨.literal value, _⟩ => .literals [value]
    | ⟨.reference inner, _⟩ => ofExpr inner)
  | .ok (.record _ value) => .record (ofExpr value)
  | .ok (.array element) => .array (ofExpr element)
  | .ok (.named name) => .named name
termination_by expr.length
decreasing_by
  · rename_i hmem
    exact Shape.length_lt_of_mem_inner _h (List.mem_filterMap.2 ⟨_, hmem, rfl⟩)
  · exact Shape.length_lt_of_mem_inner _h (List.mem_singleton_self _)
  · exact Shape.length_lt_of_mem_inner _h (List.mem_singleton_self _)

end TypeTree

/-- A primitive alternative is a name, a quoted one a list of one literal. -/
def Branch.tree : Branch → TypeTree
  | .primitive type => .named type.name
  | .literal value => .literals [value]
  | .reference expr => .ofExpr expr

def Shape.tree : Shape → TypeTree
  | .enum values => .literals values
  | .union branches => .union (branches.map Branch.tree)
  | .record _ value => .record (.ofExpr value)
  | .array element => .array (.ofExpr element)
  | .named name => .named name

theorem TypeTree.ofExpr_eq (expr : Text) :
    TypeTree.ofExpr expr = match Shape.ofExpr expr with
      | .error cause => .malformed cause
      | .ok shape => shape.tree := by
  rw [TypeTree.ofExpr]
  split
  · rename_i h
    rw [h]
  · rename_i h
    rw [h]
    rfl
  · rename_i branches h
    rw [h]
    simp only [Shape.tree, TypeTree.union.injEq]
    rw [← List.attach_map_val (f := Branch.tree)]
    apply List.map_congr_left
    rintro ⟨b, hb⟩ _
    cases b <;> rfl
  · rename_i h
    rw [h]
    rfl
  · rename_i h
    rw [h]
    rfl
  · rename_i h
    rw [h]
    rfl

end InterfaceForms

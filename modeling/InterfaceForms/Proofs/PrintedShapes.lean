import InterfaceForms.Proofs.PrintedTypes

/-!
# Shapes of printed types

The reader of expressions finds in the text of a type what was printed: the alternatives of a
choice, the type in front of `[]`, the value of a record.

* `Shape.ofExpr_print`: the shape of a printed type is that of the tree.
-/

namespace InterfaceForms

/-! ## Quotation marks -/

namespace Text

theorem unquote?_quoted (v : Text) : unquote? (TypeExpr.quoted v) = some v := by
  have hmark : isQuoteMark '"' = true := by decide
  simp [TypeExpr.quoted, unquote?, hmark]

theorem mapM_unquote?_quoted (values : List Text) :
    (values.map TypeExpr.quoted).mapM unquote? = some values := by
  induction values with
  | nil => rfl
  | cons v values ih => simp [List.mapM_cons, unquote?_quoted, ih]

theorem mapM_unquote?_eq_none {ts : List Text} (h : ∃ t ∈ ts, unquote? t = none) :
    ts.mapM unquote? = none := by
  obtain ⟨t, ht, hnone⟩ := h
  induction ts with
  | nil => cases ht
  | cons u ts ih =>
    rw [List.mapM_cons]
    rcases List.mem_cons.1 ht with rfl | ht
    · rw [hnone]
      rfl
    · rw [ih ht]
      cases unquote? u <;> rfl

theorem unquote?_of_head {c : Char} (h : isQuoteMark c = false) (t : Text) :
    unquote? (c :: t) = none := by
  simp [unquote?, h]

/-- Two texts differ if a run of characters that satisfy `p` ends in different signs. -/
theorem dropStart?_of_sign {p : Char → Bool} {w n t : Text} {c d : Char} (hw : w.all p = true)
    (hn : n.all p = true) (hc : p c = false) (hd : p d = false) (hne : c ≠ d) :
    dropStart? (w ++ [c]) (n ++ d :: t) = none := by
  cases hdrop : dropStart? (w ++ [c]) (n ++ d :: t) with
  | none => rfl
  | some rest =>
    have htext := dropStart?_eq_some.1 hdrop
    rw [List.append_assoc, List.singleton_append] at htext
    exact absurd (sign_eq hw hn hc hd htext).symm hne

end Text

namespace TypeExpr

/-- The branch of a union for an alternative. -/
def branch : TypeExpr → Branch
  | .primitive type => .primitive type
  | .literals [value] => .literal value
  | t => .reference t.print

/-- What the reader of expressions makes of the text of the type. -/
def shape : TypeExpr → Shape
  | .primitive type => .named type.name
  | .name n => .named n
  | .literals values => .enum values
  | .array item => .array item.print
  | .record value => .record "string".toList value.print
  | .union ts => .union (ts.map branch)

theorem WellFormed.head_print {t : TypeExpr} (h : t.WellFormed) (hchoice : t.isChoice = false) :
    ∃ c u, t.print = c :: u ∧ isQuoteMark c = false := by
  induction h with
  | primitive type => exact type.isName.head
  | name h => exact h.name.head
  | literals _ _ => cases hchoice
  | @array item _ ih =>
    rw [print_array, printItem]
    split
    · exact ⟨'(', _, rfl, by decide⟩
    · rename_i hitem
      obtain ⟨c, u, hprint, hc⟩ := ih (Bool.eq_false_iff.2 hitem)
      exact ⟨c, u ++ ['[', ']'], by rw [hprint, List.cons_append], hc⟩
  | record _ _ => exact ⟨'R', _, rfl, by decide⟩
  | union _ _ _ _ => cases hchoice

theorem WellFormed.unquote?_print {t : TypeExpr} (h : t.WellFormed)
    (hchoice : t.isChoice = false) : Text.unquote? t.print = none := by
  obtain ⟨c, u, hprint, hc⟩ := h.head_print hchoice
  rw [hprint, Text.unquote?_of_head hc]

theorem WellFormed.unquote?_alternative {t : TypeExpr} (h : t.WellFormed)
    (hliteral : t.isLiteral = false) : Text.unquote? t.printAlternative = none := by
  cases hchoice : t.isChoice with
  | true =>
    rw [printAlternative_of_choice (by simp [hchoice, hliteral])]
    exact Text.unquote?_of_head (by decide) _
  | false =>
    rw [printAlternative_of_simple (by simp [hchoice])]
    exact h.unquote?_print hchoice

/-! ## Arrays, records and names -/

theorem dropStart?_of_paren (t : Text) : Text.dropStart? "Record<".toList ('(' :: t) = none := by
  cases hdrop : Text.dropStart? "Record<".toList ('(' :: t) with
  | none => rfl
  | some rest =>
    have htext := Text.dropStart?_eq_some.1 hdrop
    simp at htext

theorem ofArrayOrName_mark (t : Text) :
    Shape.ofArrayOrName (t ++ ['[', ']']) = .array (Text.stripParens t) := by
  simp [Shape.ofArrayOrName, Text.dropArrayMark?]

theorem ofArrayOrName_of_plain {t : Text} (h : ']' ∉ t) : Shape.ofArrayOrName t = .named t := by
  have hmark : Text.dropArrayMark? t = none := by
    unfold Text.dropArrayMark?
    split
    · rename_i element hrev
      have hmem : ']' ∈ t := by
        rw [← List.mem_reverse, hrev]
        exact List.mem_cons_self
      exact absurd hmem h
    · rfl
  simp [Shape.ofArrayOrName, hmark]

/-- Without brackets an expression that is no choice is a name. -/
theorem ofSingle_of_plain {t : Text} (h : ']' ∉ t) (h' : '<' ∉ t) :
    Shape.ofSingle t = .ok (.named t) := by
  have hdrop : Text.dropStart? "Record<".toList t = none := by
    cases hdrop : Text.dropStart? "Record<".toList t with
    | none => rfl
    | some rest =>
      have hmem : '<' ∈ t := by
        rw [Text.dropStart?_eq_some.1 hdrop]
        simp
      exact absurd hmem h'
  simp only [Shape.ofSingle, hdrop, ofArrayOrName_of_plain h]

theorem ofSingle_name {n : Text} (h : IsName n) : Shape.ofSingle n = .ok (.named n) :=
  ofSingle_of_plain (fun hmem => absurd (h.char hmem) (by decide))
    (fun hmem => absurd (h.char hmem) (by decide))

theorem WellFormed.code_arguments {value : TypeExpr} (h : value.WellFormed) :
    Code [] ("string, ".toList ++ value.print) := by
  have hkey : Code [] "string, ".toList := .of_all (by decide)
  exact hkey.append (h.printed.code.mono rfl)

theorem dropStart?_record (value : TypeExpr) (t : Text) :
    Text.dropStart? "Record<".toList ((record value).print ++ t) =
      some ("string, ".toList ++ value.print ++ '>' :: t) := by
  have hstart : recordStart = "Record<".toList ++ "string, ".toList := by decide
  rw [Text.dropStart?_eq_some, print, hstart]
  simp only [List.append_assoc, List.singleton_append]

theorem WellFormed.closeAngle? {value : TypeExpr} (h : value.WellFormed) (t : Text) :
    Text.closeAngle? .start 0 ("string, ".toList ++ value.print ++ '>' :: t) =
      some ("string, ".toList ++ value.print, t) := by
  have hclose : Text.closeAngle? .start 0 ('>' :: t) = some ([], t) := rfl
  rw [h.code_arguments.closeAngle?, hclose]
  simp

theorem WellFormed.ofSingle_record {value : TypeExpr} (h : value.WellFormed) :
    Shape.ofSingle (TypeExpr.record value).print = .ok (.record "string".toList value.print) := by
  have hdrop := dropStart?_record value []
  rw [List.append_nil] at hdrop
  have hkey : Code [','] "string".toList := .of_all (by decide)
  have hsplit : "string, ".toList ++ value.print =
      "string".toList ++ ',' :: ([' '] ++ value.print) := rfl
  have hcut : Text.cutTop? ',' ("string, ".toList ++ value.print) =
      some ("string".toList, [' '] ++ value.print) := by
    rw [hsplit, hkey.cutTop? (by decide) List.mem_cons_self, Text.cutTop?_sep]
    simp
  have hsolid := solid_of_ends h.printed.ends
  have htrim : Text.trim ([' '] ++ value.print) = value.print := hsolid.trim_space
  have hblank : Text.blank ([' '] ++ value.print) = false := by
    have := hsolid.not_blank
    simp_all [Text.blank]
  have hkeyBlank : Text.blank "string".toList = false := by decide
  have hkeyTrim : Text.trim "string".toList = "string".toList := by decide
  have hargs : Shape.ofRecordArguments? ("string, ".toList ++ value.print) =
      some (.record "string".toList value.print) := by
    simp only [Shape.ofRecordArguments?, hcut, hkeyBlank, hblank, Bool.or_self,
      Bool.false_eq_true, if_false, hkeyTrim, htrim]
  have hend : Text.blank [] = true := rfl
  simp only [Shape.ofSingle, hdrop, h.closeAngle? [], hend, if_true, hargs]

/-- With a bracket after it the text of a type is no record. -/
theorem WellFormed.ofSingle_append {t : TypeExpr} (h : t.WellFormed) (hchoice : t.isChoice = false)
    (u : Text) :
    Shape.ofSingle (t.print ++ '[' :: u) = .ok (Shape.ofArrayOrName (t.print ++ '[' :: u)) := by
  have hname : ∀ n u, IsName n →
      Shape.ofSingle (n ++ '[' :: u) = .ok (Shape.ofArrayOrName (n ++ '[' :: u)) := by
    intro n u hn
    have hdrop : Text.dropStart? ("Record".toList ++ ['<']) (n ++ '[' :: u) = none :=
      Text.dropStart?_of_sign (by decide) hn.chars (by decide) (by decide) (by decide)
    have hstart : "Record<".toList = "Record".toList ++ ['<'] := by decide
    simp only [Shape.ofSingle, hstart, hdrop]
  induction h generalizing u with
  | primitive type => exact hname _ u type.isName
  | name h => exact hname _ u h.name
  | literals _ _ => cases hchoice
  | @array item _ ih =>
    rw [print_array, printItem]
    split
    · simp only [parenthesized, List.cons_append, Shape.ofSingle, dropStart?_of_paren]
    · rename_i hitem
      rw [List.append_assoc]
      exact ih (Bool.eq_false_iff.2 hitem) (']' :: '[' :: u)
  | record h _ =>
    have hmark : Text.isBlank '[' = false := by decide
    have hblank : Text.blank ('[' :: u) = false := by simp [Text.blank, hmark]
    simp only [Shape.ofSingle, dropStart?_record, h.closeAngle?, hblank, Bool.false_eq_true,
      if_false]
  | union _ _ _ _ => cases hchoice

theorem WellFormed.ofSingle_array {item : TypeExpr} (h : item.WellFormed) :
    Shape.ofSingle (TypeExpr.array item).print = .ok (.array item.print) := by
  have hshape : Shape.ofArrayOrName (item.printItem ++ ['[', ']']) = .array item.print := by
    rw [ofArrayOrName_mark, h.stripParens_item]
  rw [print_array, ← hshape]
  unfold printItem
  split
  · simp only [parenthesized, List.cons_append, Shape.ofSingle, dropStart?_of_paren]
  · rename_i hitem
    exact h.ofSingle_append (Bool.eq_false_iff.2 hitem) [']']

/-! ## Shapes -/

/-- A type that is no choice is read as the one alternative of its text. -/
theorem WellFormed.ofExpr_of_single {t : TypeExpr} (h : t.WellFormed) (hchoice : t.isChoice = false)
    {s : Shape} (hs : Shape.ofSingle t.print = .ok s) : Shape.ofExpr t.print = .ok s := by
  have halt := h.printed.alternative
  rw [printAlternative_of_simple (by simp [hchoice])] at halt
  have hone := Text.alternatives_of_code (halt.mono (by decide)) (solid_of_ends h.printed.ends)
  simp only [Shape.ofExpr, h.bareExpr, hone, Shape.ofAlternatives, h.unquote?_print hchoice,
    h.stripParens, hs]

theorem ofName?_of_mem {t : Text} {c : Char} (hc : c ∈ t) (hname : isNameChar c = false) :
    Primitive.ofName? t = none := by
  cases hprim : Primitive.ofName? t with
  | none => rfl
  | some p =>
    rw [← Primitive.ofName?_eq_some.1 hprim] at hc
    rw [p.isName.char hc] at hname
    cases hname

theorem WellFormed.ofExpr_of_reference {t : TypeExpr} (h : t.WellFormed)
    (hliteral : t.isLiteral = false) (hname : Primitive.ofName? t.printAlternative = none) :
    Branch.ofExpr t.printAlternative = .reference t.print := by
  simp only [Branch.ofExpr, h.unquote?_alternative hliteral, hname, h.stripParens_alternative]

theorem WellFormed.ofExpr_printAlternative {t : TypeExpr} (h : t.WellFormed) :
    Branch.ofExpr t.printAlternative = t.branch := by
  have hparen : ∀ u, Primitive.ofName? (parenthesized u) = none := fun u =>
    ofName?_of_mem (c := '(') (by simp [parenthesized]) (by decide)
  cases h with
  | primitive type =>
    have hquote := WellFormed.unquote?_alternative (.primitive type) rfl
    simp only [printAlternative, isChoice, Bool.false_and, Bool.false_eq_true, if_false,
      print] at hquote ⊢
    simp only [Branch.ofExpr, hquote, Primitive.ofName?_name, branch]
  | name h => exact ofExpr_of_reference (.name h) rfl h.declarable
  | @literals values hne hv =>
    rcases values with _ | ⟨v, _ | ⟨w, rest⟩⟩
    · exact absurd rfl hne
    · have hprint : printAlternative (.literals [v]) = quoted v := Text.joinWith_singleton bar _
      have htrim := (hv v List.mem_cons_self).trimmed
      simp only [hprint, Branch.ofExpr, Text.unquote?_quoted, htrim, branch]
    · exact ofExpr_of_reference (.literals hne hv) rfl (hparen _)
  | array h =>
    refine ofExpr_of_reference (.array h) rfl (ofName?_of_mem (c := ']') ?_ (by decide))
    rw [printAlternative_of_simple rfl, print_array]
    simp
  | record h =>
    refine ofExpr_of_reference (.record h) rfl (ofName?_of_mem (c := '>') ?_ (by decide))
    rw [printAlternative_of_simple rfl, print]
    simp
  | union hlen hmixed h => exact ofExpr_of_reference (.union hlen hmixed h) rfl (hparen _)

theorem ofAlternatives_quoted {values : List Text} (hne : values ≠ [])
    (h : ∀ value ∈ values, IsLiteral value) :
    Shape.ofAlternatives (values.map quoted) = .ok (.enum values) := by
  have htrim : values.map Text.trim = values := by
    rw [List.map_congr_left fun v hv => (h v hv).trimmed]
    exact List.map_id' values
  match values, hne, htrim with
  | [v], _, htrim =>
    simp only [List.map_cons, List.map_nil, List.cons.injEq, and_true] at htrim
    simp only [List.map_cons, List.map_nil, Shape.ofAlternatives, Text.unquote?_quoted, htrim]
  | v :: w :: rest, _, htrim =>
    have hmap := Text.mapM_unquote?_quoted (v :: w :: rest)
    simp only [List.map_cons] at hmap htrim
    simp only [List.map_cons, Shape.ofAlternatives, hmap, htrim]

theorem ofAlternatives_union {ts : List TypeExpr} (hlen : 2 ≤ ts.length)
    (hmixed : ∃ t ∈ ts, t.isLiteral = false) (h : ∀ t ∈ ts, t.WellFormed) :
    Shape.ofAlternatives (ts.map printAlternative) = .ok (.union (ts.map branch)) := by
  have hquote : (ts.map printAlternative).mapM Text.unquote? = none := by
    obtain ⟨t, ht, hliteral⟩ := hmixed
    exact Text.mapM_unquote?_eq_none
      ⟨_, List.mem_map_of_mem ht, (h t ht).unquote?_alternative hliteral⟩
  have hbranch : (ts.map printAlternative).map Branch.ofExpr = ts.map branch := by
    rw [List.map_map]
    exact List.map_congr_left fun t ht => (h t ht).ofExpr_printAlternative
  match ts, hlen, hquote, hbranch with
  | t :: u :: rest, _, hquote, hbranch =>
    simp only [List.map_cons] at hquote hbranch ⊢
    simp only [Shape.ofAlternatives, hquote, List.map_cons, hbranch]

end TypeExpr

/-- The shape of a printed type is that of its tree. -/
theorem Shape.ofExpr_print {t : TypeExpr} (h : t.WellFormed) : ofExpr t.print = .ok t.shape := by
  cases h with
  | primitive type =>
    exact TypeExpr.WellFormed.ofExpr_of_single (.primitive type) rfl
      (TypeExpr.ofSingle_name type.isName)
  | name h =>
    exact TypeExpr.WellFormed.ofExpr_of_single (.name h) rfl (TypeExpr.ofSingle_name h.name)
  | @literals values hne h =>
    have hbare := TypeExpr.WellFormed.bareExpr (.literals hne h)
    have halternatives : Text.alternatives (TypeExpr.print (.literals values)) =
        values.map TypeExpr.quoted := by
      refine Text.alternatives_joinWith (by simpa using hne) fun t ht => ?_
      obtain ⟨v, hv, rfl⟩ := List.mem_map.1 ht
      exact ⟨Text.unbarred_of_code (.quoted (h v hv)), solid_of_ends (TypeExpr.ends_quoted v)⟩
    rw [ofExpr, hbare, halternatives]
    exact TypeExpr.ofAlternatives_quoted hne h
  | array h => exact TypeExpr.WellFormed.ofExpr_of_single (.array h) rfl h.ofSingle_array
  | record h => exact TypeExpr.WellFormed.ofExpr_of_single (.record h) rfl h.ofSingle_record
  | @union ts hlen hmixed h =>
    have hbare := TypeExpr.WellFormed.bareExpr (.union hlen hmixed h)
    have hne : ts.map TypeExpr.printAlternative ≠ [] := by
      intro hnil
      rw [List.map_eq_nil_iff.1 hnil] at hlen
      simp at hlen
    have halternatives : Text.alternatives (TypeExpr.print (.union ts)) =
        ts.map TypeExpr.printAlternative := by
      rw [TypeExpr.print_union]
      refine Text.alternatives_joinWith hne fun t ht => ?_
      obtain ⟨u, hu, rfl⟩ := List.mem_map.1 ht
      have hprinted := (h u hu).printed
      exact ⟨Text.unbarred_of_code (hprinted.alternative.mono (by decide)),
        solid_of_ends hprinted.ends_alternative⟩
    rw [ofExpr, hbare, halternatives]
    exact TypeExpr.ofAlternatives_union hlen hmixed h

end InterfaceForms

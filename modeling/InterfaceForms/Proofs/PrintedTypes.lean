import InterfaceForms.Proofs.Code
import InterfaceForms.Proofs.Solid
import InterfaceForms.TypeTree

/-!
# Printed types

The text of a well-formed type is balanced code, begins and ends in a character that is not
blank, and has no parentheses around it as a whole.

* `TypeExpr.WellFormed.printed`: the text of a type, by itself and as an alternative.
* `TypeExpr.WellFormed.stripParens_item`, `TypeExpr.WellFormed.stripParens_alternative`: the
  parentheses around a choice are taken off again.
-/

namespace InterfaceForms

/-! ## Joining with bars -/

namespace Text

theorem joinWith_singleton (sep t : Text) : joinWith sep [t] = t := by
  simp [joinWith, List.intercalate]

theorem joinWith_cons_cons (sep t u : Text) (ts : List Text) :
    joinWith sep (t :: u :: ts) = t ++ sep ++ joinWith sep (u :: ts) := by
  simp [joinWith, List.intercalate, List.intersperse]

theorem joinWith_cons (sep t : Text) {ts : List Text} (hne : ts ≠ []) :
    joinWith sep (t :: ts) = t ++ sep ++ joinWith sep ts := by
  obtain ⟨u, us, rfl⟩ := List.exists_cons_of_ne_nil hne
  exact joinWith_cons_cons sep t u us

theorem Ends.joinWith {p q : Char → Bool} {ts : List Text} (hne : ts ≠ [])
    (h : ∀ t ∈ ts, Ends p q t) (sep : Text) : Ends p q (Text.joinWith sep ts) := by
  induction ts with
  | nil => exact absurd rfl hne
  | cons t ts ih =>
    cases ts with
    | nil =>
      rw [joinWith_singleton]
      exact h t List.mem_cons_self
    | cons u ts =>
      rw [joinWith_cons_cons]
      refine (h t List.mem_cons_self).append (ih (List.cons_ne_nil u ts) ?_) sep
      intro x hx
      exact h x (List.mem_cons_of_mem t hx)

theorem splitFrom_sep {sep : Char} (hsep : isPlain sep = true) (t : Text) :
    splitFrom sep .start (sep :: t) = [] :: splitFrom sep .start t := by
  have hplain := Passes.splitFrom hsep
  have hout := hplain.outside 0 _ t
    (Quoting.inside_start_step (not_isQuoteMark_of_isPlain hsep))
  have hdelta := bracketDelta_of_isPlain hsep
  have hstep : Nesting.start.step sep = ⟨Quoting.start.step sep, 0⟩ := by
    simp [Nesting.step, Nesting.start, Quoting.start, Quoting.inside, hdelta]
  have hcut : (Nesting.start.top && sep = sep) = true := by
    simp [Nesting.top, Nesting.start, Quoting.start, Quoting.inside]
  rw [splitFrom, if_pos hcut, hstep]
  exact congrArg _ hout

theorem cutTop?_sep (sep : Char) (t : Text) : cutTop? sep (sep :: t) = some ([], t) := by
  simp [cutTop?, cutFrom?, Nesting.top, Nesting.start, Quoting.start, Quoting.inside]

/-- No bar at its top level parts the text, whatever follows it. -/
def Unbarred (t : Text) : Prop :=
  ∀ u, splitFrom '|' .start (t ++ u) = (splitFrom '|' .start u).modifyHead (t ++ ·)

theorem unbarred_of_code {t : Text} (h : Code ['|'] t) : Unbarred t :=
  h.splitFrom (by decide) List.mem_cons_self

theorem Unbarred.append {t u : Text} (ht : Unbarred t) (hu : Unbarred u) : Unbarred (t ++ u) := by
  intro v
  rw [List.append_assoc, ht, hu, List.modifyHead_modifyHead]
  simp only [Function.comp_def, List.append_assoc]

/-- Splitting at bars finds the texts that were joined with them. -/
theorem map_trim_splitFrom_joinWith {ts : List Text} (hne : ts ≠ [])
    (h : ∀ t ∈ ts, Unbarred t ∧ Solid t) {b : Text} (hb : blank b = true) (hbar : Unbarred b) :
    (splitFrom '|' .start (b ++ joinWith TypeExpr.bar ts)).map trim = ts := by
  have hspace : blank [' '] = true ∧ Unbarred [' '] :=
    ⟨by decide, unbarred_of_code (.of_all (by decide))⟩
  induction ts generalizing b with
  | nil => exact absurd rfl hne
  | cons t ts ih =>
    obtain ⟨ht, hsolid⟩ := h t List.mem_cons_self
    cases ts with
    | nil =>
      have hone := (hbar.append ht) []
      rw [List.append_nil] at hone
      have htrim := hsolid.trim_between hb (e := []) rfl
      rw [List.append_nil] at htrim
      rw [joinWith_singleton, hone]
      simp [splitFrom, htrim]
    | cons u ts =>
      have hrest := ih (List.cons_ne_nil u ts) (fun x hx => h x (List.mem_cons_of_mem t hx))
        hspace.1 hspace.2
      have htext : b ++ joinWith TypeExpr.bar (t :: u :: ts) =
          (b ++ t ++ [' ']) ++ '|' :: ([' '] ++ joinWith TypeExpr.bar (u :: ts)) := by
        rw [joinWith_cons_cons]
        simp [TypeExpr.bar]
      rw [htext, ((hbar.append ht).append hspace.2), splitFrom_sep (by decide),
        List.modifyHead_cons, List.append_nil, List.map_cons, hrest,
        hsolid.trim_between hb hspace.1]

theorem alternatives_joinWith {ts : List Text} (hne : ts ≠ [])
    (h : ∀ t ∈ ts, Unbarred t ∧ Solid t) : alternatives (joinWith TypeExpr.bar ts) = ts := by
  have hmap := map_trim_splitFrom_joinWith hne h (b := []) rfl (unbarred_of_code .nil)
  rw [List.nil_append] at hmap
  rw [alternatives, splitTop, hmap]
  refine List.filter_eq_self.2 ?_
  intro t ht
  simpa using (h t ht).2.ne_nil

theorem alternatives_of_code {t : Text} (h : Code ['|'] t) (hsolid : Solid t) :
    alternatives t = [t] := by
  have hjoin := alternatives_joinWith (List.cons_ne_nil t [])
    (by simpa using ⟨unbarred_of_code h, hsolid⟩)
  rwa [joinWith_singleton] at hjoin

end Text

/-! ## Names -/

/-- The signs that part expressions. -/
def signs : Text := ['|', ',', ':']

theorem Code.of_isNameChar {t : Text} (h : t.all isNameChar = true) : Code signs t := by
  refine .of_all (List.all_eq_true.2 fun c hc => ?_)
  have hname := List.all_eq_true.1 h c hc
  have hnot : c ∉ signs := not_mem_of_class hname (by decide)
  simp [isPlain_of_isNameChar hname, hnot]

namespace IsName

variable {t : Text}

theorem chars (h : IsName t) : t.all isNameChar = true := by
  cases t with
  | nil => rfl
  | cons c t =>
    obtain ⟨hc, ht⟩ := h
    rw [List.all_cons, Text.isNameChar_of_startsName hc, ht]
    rfl

theorem char (h : IsName t) {c : Char} (hc : c ∈ t) : isNameChar c = true :=
  List.all_eq_true.1 h.chars c hc

theorem code (h : IsName t) : Code signs t := .of_isNameChar h.chars

theorem ends (h : IsName t) : Text.Ends Header.startsName isNameChar t := by
  cases t with
  | nil => cases h
  | cons c t =>
    have hne := List.cons_ne_nil c t
    refine ⟨⟨c, t, rfl, h.1⟩, ⟨(c :: t).dropLast, (c :: t).getLast hne,
      (List.dropLast_concat_getLast hne).symm, ?_⟩⟩
    exact h.char (List.getLast_mem hne)

/-- A name is not quoted. -/
theorem head (h : IsName t) : ∃ c u, t = c :: u ∧ isQuoteMark c = false := by
  obtain ⟨c, u, rfl, hc⟩ := h.ends.first
  exact ⟨c, u, rfl, not_isQuoteMark_of_isPlain
    (isPlain_of_isNameChar (Text.isNameChar_of_startsName hc))⟩

theorem solid (h : IsName t) : Text.Solid t := by
  refine h.ends.mono ?_ ?_
  · intro c hc
    simp [Text.isBlank_of_isNameChar (Text.isNameChar_of_startsName hc)]
  · intro c hc
    simp [Text.isBlank_of_isNameChar hc]

end IsName

theorem Primitive.isName (p : Primitive) : IsName p.name := by
  cases p <;> exact ⟨by decide, by decide⟩

/-! ## The text of a type -/

/-- The characters that a printed type begins with. -/
def opensType (c : Char) : Bool := Header.startsName c || c = '"' || c = '('

/-- The characters that a printed type ends in. -/
def closesType (c : Char) : Bool := isNameChar c || ['"', ']', '>', ')'].contains c

theorem solid_of_ends {t : Text} (h : t.Ends opensType closesType) : t.Solid := by
  refine h.mono ?_ ?_
  · intro c hc
    simp only [opensType, Bool.or_eq_true, decide_eq_true_eq] at hc
    rcases hc with (hc | rfl) | rfl
    · simp [Text.isBlank_of_isNameChar (Text.isNameChar_of_startsName hc)]
    · decide
    · decide
  · intro c hc
    simp only [closesType, Bool.or_eq_true, List.contains_eq_mem, decide_eq_true_eq,
      List.mem_cons, List.not_mem_nil, or_false] at hc
    rcases hc with hc | rfl | rfl | rfl | rfl
    · simp [Text.isBlank_of_isNameChar hc]
    all_goals decide

namespace TypeExpr

/-- What is known about the text of a type, by itself or as an alternative. -/
structure Printed (t : TypeExpr) : Prop where
  code : Code [',', ':'] t.print
  ends : t.print.Ends opensType closesType
  /-- An alternative has no bar at its top level. -/
  alternative : Code signs t.printAlternative

theorem ends_parenthesized (t : Text) : (parenthesized t).Ends opensType closesType :=
  .between (by decide) (by decide) t

theorem ends_quoted (v : Text) : (quoted v).Ends opensType closesType :=
  .between (by decide) (by decide) v

theorem code_joinWith {ts : List Text} (h : ∀ t ∈ ts, Code signs t) :
    Code [',', ':'] (Text.joinWith bar ts) := by
  have hno : [',', ':'].all signs.contains = true := by decide
  have hbar : Code [',', ':'] bar := .of_all (by decide)
  induction ts with
  | nil => exact .nil
  | cons t ts ih =>
    have ht := (h t List.mem_cons_self).mono hno
    cases ts with
    | nil =>
      rw [Text.joinWith_singleton]
      exact ht
    | cons u ts =>
      rw [Text.joinWith_cons_cons]
      exact (ht.append hbar).append (ih fun x hx => h x (List.mem_cons_of_mem t hx))

theorem printAlternative_of_simple {t : TypeExpr} (h : (t.isChoice && !t.isLiteral) = false) :
    t.printAlternative = t.print := by
  simp [printAlternative, h]

theorem printAlternative_of_choice {t : TypeExpr} (h : (t.isChoice && !t.isLiteral) = true) :
    t.printAlternative = parenthesized t.print := by
  simp [printAlternative, h]

namespace Printed

/-- A type that is no choice stands in a union as it is. -/
theorem of_simple {t : TypeExpr} (h : (t.isChoice && !t.isLiteral) = false)
    (hcode : Code signs t.print) (hends : t.print.Ends opensType closesType) : Printed t := by
  refine ⟨hcode.mono (by decide), hends, ?_⟩
  rw [printAlternative_of_simple h]
  exact hcode

theorem of_choice {t : TypeExpr} (h : (t.isChoice && !t.isLiteral) = true)
    (hcode : Code [',', ':'] t.print) (hends : t.print.Ends opensType closesType) :
    Printed t := by
  refine ⟨hcode, hends, ?_⟩
  rw [printAlternative_of_choice h]
  exact .parenthesized (hcode.mono rfl)

theorem ends_alternative {t : TypeExpr} (h : Printed t) :
    t.printAlternative.Ends opensType closesType := by
  unfold printAlternative
  split
  · exact ends_parenthesized _
  · exact h.ends

theorem code_item {t : TypeExpr} (h : Printed t) : Code signs t.printItem := by
  unfold printItem
  split
  · exact .parenthesized (h.code.mono rfl)
  · rename_i hchoice
    rw [← printAlternative_of_simple (by simp [hchoice])]
    exact h.alternative

theorem ends_item {t : TypeExpr} (h : Printed t) : t.printItem.Ends opensType closesType := by
  unfold printItem
  split
  · exact ends_parenthesized _
  · exact h.ends

end Printed

theorem printed_of_name {t : TypeExpr} (h : (t.isChoice && !t.isLiteral) = false)
    (hname : IsName t.print) : Printed t := by
  refine .of_simple h hname.code (hname.ends.mono ?_ ?_)
  · intro c hc
    simp [opensType, hc]
  · intro c hc
    simp [closesType, hc]

theorem WellFormed.printed {t : TypeExpr} (h : t.WellFormed) : Printed t := by
  induction h with
  | primitive type => exact printed_of_name rfl type.isName
  | name h => exact printed_of_name rfl h.name
  | @literals values hne h =>
    have hcode : ∀ t ∈ values.map quoted, Code signs t := by
      intro t ht
      obtain ⟨v, hv, rfl⟩ := List.mem_map.1 ht
      exact .quoted (h v hv)
    have hends : (print (.literals values)).Ends opensType closesType := by
      refine .joinWith (by simpa using hne) ?_ _
      intro t ht
      obtain ⟨v, _, rfl⟩ := List.mem_map.1 ht
      exact ends_quoted v
    match values, hne with
    | [v], _ =>
      have hprint : print (.literals [v]) = quoted v := Text.joinWith_singleton _ _
      exact .of_simple rfl (hprint ▸ hcode _ List.mem_cons_self) hends
    | v :: w :: rest, _ => exact .of_choice rfl (code_joinWith hcode) hends
  | @array item _ ih =>
    refine .of_simple rfl ?_ ?_
    · rw [print_array]
      exact ih.code_item.append (.square .nil)
    · rw [print_array]
      exact ih.ends_item.append_char (by decide) ['[']
  | @record value _ ih =>
    have hstart : recordStart = "Recor".toList ++ 'd' :: '<' :: "string, ".toList := by decide
    have hprint : print (.record value) =
        "Recor".toList ++ ('d' :: '<' :: ("string, ".toList ++ value.print) ++ '>' :: []) := by
      rw [print, hstart]
      simp
    refine .of_simple rfl ?_ ?_
    · rw [hprint]
      have hkey : Code [] "string, ".toList := .of_all (by decide)
      exact .append (.of_all (by decide))
        (.angles (by decide) (by decide) (hkey.append (ih.code.mono rfl)) .nil)
    · rw [hprint]
      exact .between (c := 'R') (d := '>') (by decide) (by decide)
        ("ecord<string, ".toList ++ value.print)
  | @union ts hlen _ _ ih =>
    have hne : ts.map printAlternative ≠ [] := by
      rintro h
      rw [List.map_eq_nil_iff.1 h] at hlen
      simp at hlen
    refine .of_choice rfl ?_ ?_
    · rw [print_union]
      refine code_joinWith fun t ht => ?_
      obtain ⟨u, hu, rfl⟩ := List.mem_map.1 ht
      exact (ih u hu).alternative
    · rw [print_union]
      refine .joinWith hne (fun t ht => ?_) _
      obtain ⟨u, hu, rfl⟩ := List.mem_map.1 ht
      exact (ih u hu).ends_alternative

/-! ## Parentheses -/

/-- No pair of parentheses wraps the text, whatever follows it. -/
def Unwrapped (t : Text) : Prop :=
  (∃ c u, t = c :: u ∧ c ≠ '(') ∨ ∃ u v, Code [] u ∧ v ≠ [] ∧ t = parenthesized u ++ v

namespace Unwrapped

theorem append {t : Text} (h : Unwrapped t) (v : Text) : Unwrapped (t ++ v) := by
  rcases h with ⟨c, u, rfl, hc⟩ | ⟨u, w, hu, hw, rfl⟩
  · exact .inl ⟨c, u ++ v, rfl, hc⟩
  · exact .inr ⟨u, w ++ v, hu, by simp [hw], by rw [List.append_assoc]⟩

theorem insideParens? {t : Text} (h : Unwrapped t) : Text.insideParens? t = none := by
  rcases h with ⟨c, u, rfl, hc⟩ | ⟨u, v, hu, hv, rfl⟩
  · simp [Text.insideParens?, hc]
  · have hopen : Text.staysOpen 0 (u ++ (')' :: v).dropLast) = false := by
      rw [List.dropLast_cons_of_ne_nil hv, hu.staysOpen]
      rfl
    simp [parenthesized, Text.insideParens?, hopen]

theorem stripParens {t : Text} (h : Unwrapped t) (hsolid : t.Solid) : Text.stripParens t = t := by
  have htrim := hsolid.trim
  rw [Text.stripParens_of_bare (by rw [htrim]; exact h.insideParens?), htrim]

end Unwrapped

theorem insideParens?_parenthesized {t : Text} (h : Code [] t) :
    Text.insideParens? (parenthesized t) = some t := by
  have hopen : Text.staysOpen 0 t = true := by
    have := h.staysOpen []
    rwa [List.append_nil] at this
  simp [parenthesized, Text.insideParens?, hopen]

theorem stripParens_parenthesized {t : Text} (h : Code [] t) :
    Text.stripParens (parenthesized t) = Text.stripParens t := by
  refine Text.stripParens_of_inside ?_
  rw [(solid_of_ends (ends_parenthesized t)).trim]
  exact insideParens?_parenthesized h

theorem unwrapped_of_name {t : Text} (h : IsName t) : Unwrapped t := by
  obtain ⟨c, u, rfl, hc⟩ := h.ends.first
  refine .inl ⟨c, u, rfl, ?_⟩
  rintro rfl
  exact absurd hc (by decide)

theorem unwrapped_quoted (v : Text) : Unwrapped (quoted v) :=
  .inl ⟨'"', v ++ ['"'], rfl, by decide⟩

theorem unwrapped_joinWith {t u : Text} {ts : List Text} (h : Unwrapped t) :
    Unwrapped (Text.joinWith bar (t :: u :: ts)) := by
  rw [Text.joinWith_cons_cons, List.append_assoc]
  exact h.append _

theorem WellFormed.unwrapped {t : TypeExpr} (h : t.WellFormed) : Unwrapped t.print := by
  induction h with
  | primitive type => exact unwrapped_of_name type.isName
  | name h => exact unwrapped_of_name h.name
  | @literals values hne h =>
    rcases values with _ | ⟨v, _ | ⟨w, rest⟩⟩
    · exact absurd rfl hne
    · have hprint : print (.literals [v]) = quoted v := Text.joinWith_singleton _ _
      exact hprint ▸ unwrapped_quoted v
    · exact unwrapped_joinWith (unwrapped_quoted v)
  | @array item hitem ih =>
    rw [print_array, printItem]
    split
    · exact .inr ⟨_, _, hitem.printed.code.mono rfl, List.cons_ne_nil _ _, rfl⟩
    · exact ih.append _
  | record _ _ => exact .inl ⟨'R', _, rfl, by decide⟩
  | @union ts hlen _ hts ih =>
    rcases ts with _ | ⟨t, _ | ⟨u, rest⟩⟩
    · cases hlen
    · exact absurd hlen (Nat.lt_irrefl 1)
    · rw [print_union, List.map_cons, List.map_cons]
      by_cases ht : (t.isChoice && !t.isLiteral) = true
      · rw [Text.joinWith_cons_cons, printAlternative_of_choice ht, List.append_assoc]
        refine .inr ⟨_, _, (hts t List.mem_cons_self).printed.code.mono rfl, ?_, rfl⟩
        simp [bar]
      · rw [printAlternative_of_simple (Bool.eq_false_iff.2 ht)]
        exact unwrapped_joinWith (ih t List.mem_cons_self)

theorem WellFormed.stripParens {t : TypeExpr} (h : t.WellFormed) :
    Text.stripParens t.print = t.print :=
  h.unwrapped.stripParens (solid_of_ends h.printed.ends)

theorem WellFormed.stripParens_item {t : TypeExpr} (h : t.WellFormed) :
    Text.stripParens t.printItem = t.print := by
  unfold printItem
  split
  · rw [stripParens_parenthesized (h.printed.code.mono rfl), h.stripParens]
  · exact h.stripParens

theorem WellFormed.stripParens_alternative {t : TypeExpr} (h : t.WellFormed) :
    Text.stripParens t.printAlternative = t.print := by
  unfold printAlternative
  split
  · rw [stripParens_parenthesized (h.printed.code.mono rfl), h.stripParens]
  · exact h.stripParens

/-- Nothing is taken off a printed type. -/
theorem WellFormed.bareExpr {t : TypeExpr} (h : t.WellFormed) :
    Shape.bareExpr t.print = t.print := by
  have hends := h.printed.ends
  have hsemi : ∀ c : Char, (c = ';' : Bool) = true → closesType c = false := by
    intro c hc
    obtain rfl := of_decide_eq_true hc
    decide
  rw [Shape.bareExpr, (solid_of_ends hends).trim, hends.dropEndWhile hsemi]
  exact h.stripParens

end TypeExpr

end InterfaceForms

import InterfaceForms.Proofs.LineComments
import InterfaceForms.Proofs.Parentheses

/-!
# A bar before an expression

With a bar before it an expression is cut into alternatives as it stands, and without one only when
the parentheses around it are taken off. So the bar changes nothing, unless parentheses hide a
choice: then the whole is one alternative with the bar and several, or a literal, without.

* `Shape.ofExpr_bar`: the alternatives behind a bar.
* `Shape.ofExpr_leadingBar`: when the bar changes nothing.
-/

namespace InterfaceForms

namespace Text

variable {b t inner : Text}

/-! ## Ends -/

theorem dropEndWhile_append {p : Char → Bool} (hb : ∀ c ∈ b, p c = false) (t : Text) :
    dropEndWhile p (b ++ t) = b ++ dropEndWhile p t := by
  induction b with
  | nil => rfl
  | cons c b ih =>
    obtain ⟨hc, hb⟩ := List.forall_mem_cons.1 hb
    rw [List.cons_append, dropEndWhile_cons hc, ih hb, List.cons_append]

theorem trim_trimEnd (t : Text) : trim (trimEnd t) = trim t := by
  obtain ⟨b, hb, ht⟩ := exists_trimEnd t
  calc trim (trimEnd t) = trim (trimEnd t ++ b) := (trim_append_of_blank hb).symm
    _ = trim t := by rw [← ht]

/-- The expression without blanks around it and without semicolons at its end. -/
def withoutEnd (t : Text) : Text := trim (dropEndWhile (· = ';') (trim t))

theorem trim_withoutEnd (t : Text) : trim (withoutEnd t) = withoutEnd t := trim_trim _

/-- What ends an expression is dropped where blanks stand before it, too. -/
theorem trim_dropEndWhile (hb : blank b = true) (t : Text) :
    trim (dropEndWhile (· = ';') (trimEnd (b ++ t))) = withoutEnd t := by
  cases ht : blank t with
  | true =>
    have hall : blank (b ++ t) = true := by
      rw [blank, List.all_append, Bool.and_eq_true]
      exact ⟨hb, ht⟩
    have hnil : trimEnd (b ++ t) = [] := by
      have hdrop := dropEndWhile_append_of_all (p := isBlank) (t := []) hall
      exact hdrop
    rw [hnil, withoutEnd, trim_eq_nil.2 ht]
  | false =>
    have hsplit : b ++ t = (b ++ t.takeWhile isBlank) ++ trimStart t := by
      rw [List.append_assoc, trimStart, List.takeWhile_append_dropWhile]
    have hblank : blank (b ++ t.takeWhile isBlank) = true := by
      rw [blank, List.all_append, Bool.and_eq_true]
      exact ⟨hb, List.all_takeWhile⟩
    have hkept : blank (trimStart t) = false := by
      rw [Bool.eq_false_iff]
      intro hstart
      have hnil : trim t = [] := by
        rw [trim, ← List.nil_append (trimStart t), trimEnd, dropEndWhile_append_of_all hstart]
        rfl
      rw [trim_eq_nil.1 hnil] at ht
      cases ht
    have hsemi : ∀ c ∈ b ++ t.takeWhile isBlank, (decide (c = ';')) = false := by
      intro c hc
      rw [decide_eq_false_iff_not]
      rintro rfl
      exact absurd (List.all_eq_true.1 hblank _ hc) (by decide)
    rw [hsplit, trimEnd_append hkept, dropEndWhile_append hsemi, trim_append hblank]
    rfl

/-! ## Alternatives of a text between blanks -/

theorem not_mem_of_blank (h : blank b = true) {c : Char} (hc : isBlank c = false) : c ∉ b := by
  intro hmem
  rw [not_blank_of_mem hmem hc] at h
  cases h

theorem alternatives_append_blank (hb : blank b = true) (t : Text) :
    alternatives (t ++ b) = alternatives t := by
  obtain ⟨depth, parts, last, hsplit⟩ := splitFrom_append '|' .start 0 t
  have hnone := splitFrom_of_none
    (cutFrom?_of_not_mem (not_mem_of_blank hb (c := '|') (by decide)) ⟨Quoting.start.run t, depth⟩)
  have hwith : splitTop '|' (t ++ b) = parts ++ [last ++ b] := by
    rw [splitTop, show Nesting.start = ⟨.start, 0⟩ from rfl, hsplit, hnone, List.modifyHead_cons]
  have hwithout : splitTop '|' t = parts ++ [last] := by
    have hnil := hsplit []
    rw [List.append_nil] at hnil
    rw [splitTop, show Nesting.start = ⟨.start, 0⟩ from rfl, hnil, splitFrom, List.modifyHead_cons,
      List.append_nil]
  rw [alternatives, alternatives, hwith, hwithout]
  simp only [List.map_append, List.map_cons, List.map_nil, trim_append_of_blank hb]

theorem unbarred_of_blank (hb : blank b = true) : Unbarred b := by
  refine Whole.unbarred (Whole.of_all (p := isBlank) (fun c hc => ?_) hb)
  have hneutral := isNeutral_of_isBlank hc
  refine .char (not_isQuoteMark_of_isNeutral hneutral) (bracketDelta_of_isNeutral hneutral) ?_ ?_
  · rintro rfl
    exact absurd hc (by decide)
  · rintro rfl
    exact absurd hc (by decide)

theorem alternatives_blank_append (hb : blank b = true) (t : Text) :
    alternatives (b ++ t) = alternatives t := by
  rw [alternatives, alternatives, splitTop, splitTop, unbarred_of_blank hb]
  obtain ⟨part, parts, hparts⟩ := List.exists_cons_of_ne_nil (splitFrom_ne_nil '|' .start t)
  rw [hparts, List.modifyHead_cons, List.map_cons, List.map_cons, trim_append hb]

theorem alternatives_trim (t : Text) : alternatives (trim t) = alternatives t := by
  obtain ⟨e, he, hend⟩ := exists_trimEnd (trimStart t)
  calc alternatives (trim t) = alternatives (trim t ++ e) := (alternatives_append_blank he _).symm
    _ = alternatives (t.takeWhile isBlank ++ (trim t ++ e)) :=
      (alternatives_blank_append List.all_takeWhile _).symm
    _ = alternatives t := by
      rw [trim, ← hend, trimStart, List.takeWhile_append_dropWhile]

theorem alternatives_bar (t : Text) : alternatives ('|' :: t) = alternatives t := by
  rw [alternatives, splitTop, splitFrom_sep (by decide), List.map_cons]
  exact List.filter_cons_of_neg (by decide)

theorem sublist_of_mem_splitFrom {sep : Char} {n : Nesting} {part : Text}
    (h : part ∈ splitFrom sep n t) : part.Sublist t := by
  induction t generalizing n part with
  | nil => rw [List.mem_singleton.1 h]
  | cons c t ih =>
    obtain ⟨first, rest, hparts⟩ := List.exists_cons_of_ne_nil (splitFrom_ne_nil sep (n.step c) t)
    have htail : ∀ u ∈ first :: rest, u.Sublist t := fun u hu => ih (hparts ▸ hu)
    rw [splitFrom, hparts] at h
    split at h
    · rcases List.mem_cons.1 h with rfl | h
      · exact List.nil_sublist _
      · exact (htail part h).cons c
    · rw [List.modifyHead_cons] at h
      rcases List.mem_cons.1 h with rfl | h
      · exact (htail first List.mem_cons_self).cons_cons c
      · exact (htail part (List.mem_cons_of_mem _ h)).cons c

/-- An alternative has fewer bars than a text that is cut at one. -/
theorem count_lt_of_mem_alternatives (h : cutTop? '|' t ≠ none) {u : Text}
    (hu : u ∈ alternatives t) : u.count '|' < t.count '|' := by
  have hbar : '|' ∈ keptSigns := by decide
  obtain ⟨⟨left, right⟩, hcut⟩ := Option.ne_none_iff_exists'.1 h
  obtain ⟨n, hsplit⟩ := splitFrom_of_some hcut
  obtain ⟨part, hpart, rfl⟩ := List.mem_map.1 (List.mem_filter.1 hu).1
  have htext : t.count '|' = left.count '|' + (right.count '|' + 1) := by
    rw [cutTop?_eq_some hcut, List.count_append, List.count_cons_self]
  rw [splitTop, hsplit] at hpart
  rw [count_trim hbar, htext]
  rcases List.mem_cons.1 hpart with rfl | hpart
  · omega
  · have hle := (sublist_of_mem_splitFrom hpart).count_le '|'
    omega

/-- Parentheses are taken off the expression, and a bar parts it, or a bar parts what they hold, or
they hold one quoted literal. -/
def HidesChoice (t : Text) : Prop :=
  insideParens? (withoutEnd t) ≠ none ∧
    (cutTop? '|' (withoutEnd t) ≠ none ∨ cutTop? '|' (stripParens (withoutEnd t)) ≠ none ∨
      unquote? (stripParens (withoutEnd t)) ≠ none)

theorem staysOpen_of_insideParens? (h : insideParens? t = some inner) :
    t = TypeExpr.parenthesized inner ∧ staysOpen 0 inner = true := by
  obtain rfl : t = TypeExpr.parenthesized inner := eq_of_insideParens? h
  rw [insideParens?_parenthesized] at h
  split at h
  · rename_i hopen
    exact ⟨rfl, hopen⟩
  · cases h

end Text

/-! ## Bracketed expressions in parentheses -/

namespace Bracketed

variable {lit top : Char → Bool} {k : Nat} {t inner : Text}

/-- The first parenthesis of a wrapped expression and the last one are a pair. -/
theorem of_insideParens? (h : Bracketed lit top k t) (hlit : ∀ c, lit c = true → isNoParen c = true)
    (hin : Text.insideParens? t = some inner) : Bracketed lit (fun _ => true) k inner := by
  obtain ⟨ht, hopen⟩ := Text.staysOpen_of_insideParens? hin
  have hfirst : t.head? = some '(' := by rw [ht]; rfl
  cases h with
  | nil => cases hfirst
  | sign hc _ _ =>
    obtain rfl := Option.some.inj hfirst
    cases hc
  | arrow _ _ => cases hfirst
  | literal hmark _ _ =>
    obtain rfl := Option.some.inj hfirst
    cases hmark
  | @brackets _ m n a b u v hpair hu hv =>
    obtain rfl := Option.some.inj hfirst
    have hpairs : ∀ p ∈ bracketPairs, p.1 = '(' → p.2 = ')' := by decide
    obtain rfl : b = ')' := hpairs _ hpair rfl
    have htail : u ++ ')' :: v = inner ++ [')'] := (List.cons.inj ht).2
    rcases List.eq_nil_or_concat' v with rfl | ⟨v, c, rfl⟩
    · obtain ⟨rfl, -⟩ := List.append_singleton_inj.1 htail
      cases hv
      exact hu
    · obtain ⟨rfl, -⟩ : u ++ ')' :: v = inner ∧ c = ')' :=
        List.append_singleton_inj.1 (by simpa using htail)
      rw [hu.staysOpen hlit] at hopen
      cases hopen

theorem withoutEnd (h : Bracketed lit top k t) : Bracketed lit top k (Text.withoutEnd t) := by
  refine (h.trim.dropEndWhile fun c hc => ?_).trim
  obtain rfl : c = ';' := by simpa using hc
  decide

end Bracketed

/-! ## The bar -/

namespace Shape

open Text

theorem ofExpr_eq_withoutEnd (e : Text) :
    ofExpr e = ofAlternatives (alternatives (stripParens (withoutEnd e))) := by
  rw [ofExpr, bareExpr, withoutEnd, stripParens_trim]

/-- Behind a bar the expression is cut into alternatives as it stands. -/
theorem ofExpr_bar (e : Text) :
    ofExpr ("| ".toList ++ e) = ofAlternatives (alternatives (withoutEnd e)) := by
  have hblank : isBlank '|' = false := by decide
  have htrim : ∀ u : Text, trim ('|' :: u) = '|' :: trimEnd u := by
    intro u
    have hstart : trimStart ('|' :: u) = '|' :: u := by simp [trimStart, hblank]
    rw [trim, hstart, trimEnd, dropEndWhile_cons hblank]
    rfl
  have hstrip : ∀ u : Text, stripParens ('|' :: u) = '|' :: trimEnd u := by
    intro u
    rw [stripParens_of_bare (by rw [htrim]; rfl), htrim]
  have hbare : bareExpr ("| ".toList ++ e) =
      '|' :: trimEnd (dropEndWhile (· = ';') (trimEnd ([' '] ++ e))) := by
    rw [bareExpr, show "| ".toList ++ e = '|' :: ([' '] ++ e) from rfl, htrim,
      dropEndWhile_cons (by decide), hstrip]
  rw [ofExpr, hbare, alternatives_bar, ← alternatives_trim, trim_trimEnd,
    trim_dropEndWhile (by decide)]

theorem ofExpr_leadingBar_of_bare {e : Text} (h : insideParens? (withoutEnd e) = none) :
    ofExpr ("| ".toList ++ e) = ofExpr e := by
  have htrim := trim_withoutEnd e
  rw [ofExpr_bar, ofExpr_eq_withoutEnd, stripParens_of_bare (by rw [htrim, h]), htrim]

/-- A wrapped expression that no bar parts is one alternative, which loses its parentheses. -/
theorem ofExpr_bar_of_wrapped {e inner : Text} (h : insideParens? (withoutEnd e) = some inner)
    (hcut : cutTop? '|' (withoutEnd e) = none) :
    ofExpr ("| ".toList ++ e) = ofSingle (stripParens (withoutEnd e)) := by
  obtain ⟨htext, -⟩ := staysOpen_of_insideParens? h
  have hne : withoutEnd e ≠ [] := by
    rw [htext]
    exact List.cons_ne_nil _ _
  have hquote := unquote?_parenthesized inner []
  rw [List.append_nil, ← htext] at hquote
  rw [ofExpr_bar, alternatives_of_uncut (solid_of_trim (trim_withoutEnd e) hne) hcut,
    ofAlternatives_singleton hquote]

theorem ofExpr_leadingBar_of_not_hidden {e : Text} (h : ¬ HidesChoice e) :
    ofExpr ("| ".toList ++ e) = ofExpr e := by
  cases hinside : insideParens? (withoutEnd e) with
  | none => exact ofExpr_leadingBar_of_bare hinside
  | some inner =>
    have hplain : cutTop? '|' (withoutEnd e) = none ∧
        cutTop? '|' (stripParens (withoutEnd e)) = none ∧
        unquote? (stripParens (withoutEnd e)) = none := by
      simpa [HidesChoice, hinside] using h
    obtain ⟨hcut, hbare, hquote⟩ := hplain
    rw [ofExpr_bar_of_wrapped hinside hcut, ofExpr_eq_withoutEnd]
    by_cases hnil : stripParens (withoutEnd e) = []
    · rw [hnil]
      rfl
    · have hsolid := solid_of_trim (trim_stripParens _) hnil
      rw [alternatives_of_uncut hsolid hbare, ofAlternatives_singleton hquote,
        stripParens_stripParens]

/-- A choice that is read without its bars is read as something else. -/
theorem ofSingle_ne_ofAlternatives {t : Text} (h : cutTop? '|' t ≠ none ∨ unquote? t ≠ none)
    (hsolid : t.Solid) : ofSingle t ≠ ofAlternatives (alternatives t) := by
  have hbar : '|' ∈ keptSigns := by decide
  have hchoice : ∀ s : Shape, ofAlternatives (alternatives t) = .ok s → s.isChoice = true →
      ofSingle t ≠ ofAlternatives (alternatives t) := by
    intro s hs hchoice heq
    rw [isChoice_ofSingle (heq.trans hs)] at hchoice
    cases hchoice
  by_cases hcut : cutTop? '|' t = none
  · obtain ⟨value, hvalue⟩ := Option.ne_none_iff_exists'.1 (h.resolve_left (absurd hcut))
    have hone := alternatives_of_uncut hsolid hcut
    exact hchoice (.enum [trim value]) (by rw [hone, ofAlternatives, hvalue]) rfl
  · by_cases hmany : 2 ≤ (alternatives t).length
    · obtain ⟨s, hs, hs'⟩ := isChoice_ofAlternatives hmany
      exact hchoice s hs hs'
    · -- The bars of the text are found again in the name, record or array that it is read as.
      intro heq
      have hcount := congrArg (fun r => (written r).count '|') heq
      simp only [count_written_ofSingle hbar, count_written_ofAlternatives hbar] at hcount
      rcases halts : alternatives t with _ | ⟨u, _ | ⟨v, rest⟩⟩
      · obtain ⟨parts, hparts⟩ := Option.ne_none_iff_exists'.1 hcut
        rw [halts, cutTop?_eq_some hparts] at hcount
        simp at hcount
      · have hlt := count_lt_of_mem_alternatives hcut (u := u) (by rw [halts]; simp)
        rw [halts, List.flatten_singleton] at hcount
        omega
      · rw [halts] at hmany
        simp at hmany

/-- A bar before an expression changes nothing, unless parentheses around it hide a choice. Then it
does, if the expression has no arrow and its literals hold no parentheses. -/
theorem ofExpr_leadingBar (e : Text) :
    (¬ HidesChoice e → ofExpr ("| ".toList ++ e) = ofExpr e) ∧
    (Bracketed isNoParen (fun _ => true) 0 e → HidesChoice e →
      ofExpr ("| ".toList ++ e) ≠ ofExpr e) := by
  refine ⟨ofExpr_leadingBar_of_not_hidden, ?_⟩
  rintro h ⟨hinside, hchoice⟩
  obtain ⟨inner, hinner⟩ := Option.ne_none_iff_exists'.1 hinside
  have hin := h.withoutEnd.of_insideParens? (fun _ hc => hc) hinner
  obtain ⟨htext, hopen⟩ := staysOpen_of_insideParens? hinner
  have hcut : cutTop? '|' (withoutEnd e) = none := by
    rw [htext]
    exact hin.cutTop?_parenthesized
  have hhidden := hchoice.resolve_left (absurd hcut)
  have hne : stripParens (withoutEnd e) ≠ [] := by
    rcases hhidden with hbare | hquote
    · rintro hnil
      rw [hnil] at hbare
      exact hbare rfl
    · rintro hnil
      rw [hnil] at hquote
      exact hquote rfl
  rw [ofExpr_bar_of_wrapped hinner hcut, ofExpr_eq_withoutEnd]
  exact ofSingle_ne_ofAlternatives hhidden (solid_of_trim (trim_stripParens _) hne)

/-- Parentheses around an array hide no choice, but those around two literals do. -/
theorem ofExpr_leadingBar_literals :
    ¬ HidesChoice "((A | B)[]);".toList ∧
    ofExpr "| ((A | B)[]);".toList = ofExpr "((A | B)[]);".toList ∧
    Bracketed isNoParen (fun _ => true) 0 "(\"a\" | \"b\")".toList ∧
    HidesChoice "(\"a\" | \"b\")".toList ∧
    ofExpr "| (\"a\" | \"b\")".toList ≠ ofExpr "(\"a\" | \"b\")".toList := by
  have harray : ¬ HidesChoice "((A | B)[]);".toList := by
    unfold HidesChoice
    decide +kernel
  have hliterals : HidesChoice "(\"a\" | \"b\")".toList := by
    unfold HidesChoice
    decide +kernel
  have hsecond : Bracketed isNoParen (fun _ => true) 0 ('"' :: ['b'] ++ '"' :: []) :=
    .literal (by decide) (by decide) .nil
  have hbar : Bracketed isNoParen (fun _ => true) 0 " | ".toList := .of_all (by decide)
  have hfirst : Bracketed isNoParen (fun _ => true) (0 + 0)
      ('"' :: ['a'] ++ '"' :: (" | ".toList ++ ('"' :: ['b'] ++ '"' :: []))) :=
    .literal (by decide) (by decide) (hbar.append hsecond)
  have hbracketed : Bracketed isNoParen (fun _ => true) 0 "(\"a\" | \"b\")".toList :=
    .brackets (m := 0 + 0) (a := '(') (b := ')') (by decide) hfirst .nil
  have hsame := (ofExpr_leadingBar "((A | B)[]);".toList).1 harray
  have hother := (ofExpr_leadingBar "(\"a\" | \"b\")".toList).2 hbracketed hliterals
  exact ⟨harray, hsame, hbracketed, hliterals, hother⟩

/-- Two literals in parentheses are a list of literals, and behind a bar they are one name. -/
theorem ofExpr_leadingBar_hidden :
    ofExpr "(\"a\" | \"b\")".toList = .ok (.enum ["a".toList, "b".toList]) ∧
    ofExpr "| (\"a\" | \"b\")".toList = .ok (.named "\"a\" | \"b\"".toList) := by
  constructor
  all_goals decide +kernel

end Shape

end InterfaceForms

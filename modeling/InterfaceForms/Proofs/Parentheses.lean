import InterfaceForms.Proofs.Choices
import InterfaceForms.Proofs.KeptSigns

/-!
# Parentheses around an expression

Parentheses around an expression change nothing, and an array of what they hold has it as its
element. Three things come between. The parentheses are told from those of two parts by counting
the parentheses inside, those in literals too, so a literal may keep them from being taken off. The
`>` of an arrow may leave a bar inside of them at the top level. And a semicolon that ends an
expression is not dropped where it stands inside of parentheses.

* `Text.stripParens_stripParens`: wrapping parentheses are taken off at once.
* `Shape.ofExpr_parenthesized`: when parentheses change nothing.
-/

namespace InterfaceForms

namespace Text

variable {t inner : Text}

theorem insideParens?_stripParens (t : Text) : insideParens? (stripParens t) = none := by
  fun_induction stripParens t with
  | case1 t inner h ih => exact ih
  | case2 t h => exact h

theorem trim_stripParens (t : Text) : trim (stripParens t) = stripParens t := by
  fun_induction stripParens t with
  | case1 t inner h ih => exact ih
  | case2 t h => exact trim_trim t

theorem stripParens_stripParens (t : Text) : stripParens (stripParens t) = stripParens t := by
  have htrim := trim_stripParens t
  rw [stripParens_of_bare (by rw [htrim, insideParens?_stripParens]), htrim]

theorem insideParens?_parenthesized (t : Text) :
    insideParens? (TypeExpr.parenthesized t) = if staysOpen 0 t then some t else none := by
  cases h : staysOpen 0 t with
  | true => simp [TypeExpr.parenthesized, insideParens?, h]
  | false => simp [TypeExpr.parenthesized, insideParens?, h]

theorem ends_parenthesized (t : Text) :
    (TypeExpr.parenthesized t).Ends opensAlternative closesAlternative :=
  .between (by decide) (by decide) t

theorem stripParens_parenthesized (t : Text) :
    stripParens (TypeExpr.parenthesized t) =
      if staysOpen 0 t then stripParens t else TypeExpr.parenthesized t := by
  have htrim := (solid_of_alternatives (ends_parenthesized t)).trim
  have hinside := insideParens?_parenthesized t
  cases h : staysOpen 0 t with
  | true =>
    rw [h] at hinside
    exact stripParens_of_inside (by rw [htrim, hinside]; rfl)
  | false =>
    rw [h] at hinside
    rw [stripParens_of_bare (by rw [htrim, hinside]; rfl), htrim]
    rfl

theorem unquote?_parenthesized (t tail : Text) :
    unquote? (TypeExpr.parenthesized t ++ tail) = none := by
  simp [TypeExpr.parenthesized, unquote?, isQuoteMark]

theorem dropStart?_parenthesized (t tail : Text) :
    dropStart? "Record<".toList (TypeExpr.parenthesized t ++ tail) = none := by
  simp [TypeExpr.parenthesized, dropStart?]

/-! ## Semicolons at the end -/

theorem dropEndWhile_eq_self (h : endsWith ';' t = false) : dropEndWhile (· = ';') t = t := by
  rcases List.eq_nil_or_concat' t with rfl | ⟨u, c, rfl⟩
  · rfl
  · have hc : c ≠ ';' := by simpa [endsWith] using h
    simp [dropEndWhile, hc]

theorem count_dropEndWhile_lt (h : endsWith ';' t = true) :
    (dropEndWhile (· = ';') t).count ';' < t.count ';' := by
  obtain ⟨u, rfl⟩ : ∃ u, t = u ++ [';'] := List.getLast?_eq_some_iff.1 (by simpa [endsWith] using h)
  have hle : (dropEndWhile (· = ';') u).count ';' ≤ u.count ';' := by
    rw [dropEndWhile, List.count_reverse, ← List.count_reverse (l := u)]
    exact (List.dropWhile_sublist _).count_le _
  rw [dropEndWhile_append_of_all (by decide), List.count_append, List.count_singleton_self]
  exact Nat.lt_succ_of_le hle

end Text

/-- Without arrows no bar comes to the top level of an expression in parentheses. -/
theorem Bracketed.cutTop?_parenthesized {lit top : Char → Bool} {t : Text}
    (h : Bracketed lit top 0 t) : Text.cutTop? '|' (TypeExpr.parenthesized t) = none := by
  have hparens : Bracketed lit (· ≠ '|') (0 + 0) (TypeExpr.parenthesized t) :=
    .brackets (by decide) (h.mono fun _ _ => rfl) .nil
  exact hparens.cutTop?_eq_none (by decide) (by decide)

namespace Shape

open TypeExpr (parenthesized)
open Text

variable {e : Text}

theorem named_ofSingle {name : Text} (h : ofSingle e = .ok (.named name)) : name = e := by
  have hname : ∀ {t : Text}, ofArrayOrName t = .named name → name = t := by
    intro t ht
    unfold ofArrayOrName at ht
    split at ht
    · cases ht
    · exact (Shape.named.inj ht).symm
  unfold ofSingle at h
  split at h
  · exact hname (Except.ok.inj h)
  split at h
  · cases h
  split at h
  · split at h
    · rename_i shape hargs
      cases h
      unfold ofRecordArguments? at hargs
      split at hargs
      · split at hargs
        · cases hargs
        · cases hargs
      · cases hargs
    · cases h
  · exact hname (Except.ok.inj h)

/-- The name that an expression is read as is no longer than the expression. -/
theorem length_of_named {name : Text} (h : ofExpr e = .ok (.named name)) :
    name.length ≤ e.length := by
  have hbare := length_bareExpr_le e
  rw [ofExpr] at h
  rcases halts : alternatives (bareExpr e) with _ | ⟨t, _ | ⟨u, rest⟩⟩
  · rw [halts] at h
    cases h
    exact Nat.zero_le _
  · rw [halts, ofAlternatives] at h
    split at h
    · cases h
    · have hlen := length_of_mem_alternatives_singleton halts
      have hstrip := length_stripParens_le t
      rw [named_ofSingle h]
      omega
  · rw [halts] at h
    have htwo : 2 ≤ (t :: u :: rest).length := by simp
    cases isChoice_of_two_le htwo h

/-- Parentheses that are taken off. -/
theorem ofExpr_parenthesized_of_staysOpen (h : staysOpen 0 e = true) :
    ofExpr (parenthesized e) = ofAlternatives (alternatives (stripParens e)) := by
  have hends := ends_parenthesized e
  have hdrop : dropEndWhile (· = ';') (parenthesized e) = parenthesized e :=
    dropEndWhile_eq_self (hends.endsWith (by decide))
  rw [ofExpr, bareExpr, (solid_of_alternatives hends).trim, hdrop, stripParens_parenthesized, if_pos h]

/-- Parentheses that are kept. -/
theorem ofExpr_parenthesized_of_not (h : staysOpen 0 e = false)
    (hcut : cutTop? '|' (parenthesized e) = none) :
    ofExpr (parenthesized e) = .ok (.named (parenthesized e)) := by
  have hinside : insideParens? (parenthesized e) = none := by
    rw [insideParens?_parenthesized, h]
    rfl
  have hquote := unquote?_parenthesized e []
  have hstart := dropStart?_parenthesized e []
  rw [List.append_nil] at hquote hstart
  have hmark : dropArrayMark? (parenthesized e) = none := by
    rw [dropArrayMark?, parenthesized, List.reverse_concat]
    rfl
  rw [ofExpr_of_uncut (ends_parenthesized e) hinside hquote hcut, ofSingle, hstart]
  simp [ofArrayOrName, hmark]

/-- An expression without the parentheses around it is read as with them but for a semicolon. -/
theorem ofExpr_stripParens (h : endsWith ';' (stripParens e) = false) :
    ofExpr (stripParens e) = ofAlternatives (alternatives (stripParens e)) := by
  rw [ofExpr, bareExpr, trim_stripParens, dropEndWhile_eq_self h, stripParens_stripParens]

theorem ofExpr_of_not_endsWith (h : endsWith ';' (trim e) = false) :
    ofExpr e = ofAlternatives (alternatives (stripParens e)) := by
  rw [ofExpr, bareExpr, dropEndWhile_eq_self h, stripParens_trim]

theorem ofExpr_parenthesized_iff (h : staysOpen 0 e = true) :
    ofExpr (parenthesized e) = ofExpr e ↔ endsWith ';' (trim e) = false := by
  have hsemi : ';' ∈ keptSigns := by decide
  constructor
  · intro heq
    rw [Bool.eq_false_iff]
    intro hend
    -- The semicolon is left out only where it stands outside.
    have hlt := count_dropEndWhile_lt hend
    have hcount := congrArg (fun r => (written r).count ';') heq
    simp only [ofExpr_parenthesized_of_staysOpen h, count_semicolons_ofExpr,
      count_written_ofAlternatives hsemi, count_alternatives hsemi (by decide : '|' ≠ ';'),
      count_stripParens hsemi] at hcount
    rw [count_trim hsemi] at hlt
    omega
  · intro hend
    rw [ofExpr_parenthesized_of_staysOpen h, ofExpr_of_not_endsWith hend]

theorem ofExpr_parenthesized_ne (h : staysOpen 0 e = false)
    (hcut : cutTop? '|' (parenthesized e) = none) : ofExpr (parenthesized e) ≠ ofExpr e := by
  intro heq
  have hlen := length_of_named (heq.symm.trans (ofExpr_parenthesized_of_not h hcut))
  simp only [parenthesized, List.length_append, List.length_cons, List.length_nil] at hlen
  omega

/-- What is in front of `[]` is the element of an array, without the parentheses around it. -/
theorem ofExpr_parenthesized_array (e : Text) :
    (cutTop? '|' (parenthesized e) = none → ofExpr (parenthesized e ++ ['[', ']']) =
      .ok (.array (if staysOpen 0 e then stripParens e else parenthesized e))) ∧
    (cutTop? '|' (parenthesized e) ≠ none → ∀ item,
      ofExpr (parenthesized e ++ ['[', ']']) ≠ .ok (.array item)) := by
  have hends : (parenthesized e ++ ['[', ']']).Ends opensAlternative closesAlternative :=
    (ends_parenthesized e).append_char (by decide) ['[']
  have hinside : insideParens? (parenthesized e ++ ['[', ']']) = none := by
    simp [parenthesized, insideParens?]
  have hnone : ∀ n, cutFrom? '|' n ['[', ']'] = none := cutFrom?_of_not_mem (by decide)
  have hcut : cutTop? '|' (parenthesized e ++ ['[', ']']) = none ↔
      cutTop? '|' (parenthesized e) = none := by
    rw [cutTop?, cutTop?, cutFrom?_append_eq_none]
    exact and_iff_left (hnone _)
  constructor
  · intro hfree
    have hmark : dropArrayMark? (parenthesized e ++ ['[', ']']) = some (parenthesized e) := by
      simp [dropArrayMark?]
    rw [ofExpr_of_uncut hends hinside (unquote?_parenthesized e _) (hcut.2 hfree), ofSingle,
      dropStart?_parenthesized, ← stripParens_parenthesized]
    simp [ofArrayOrName, hmark]
  · intro hbar item hitem
    cases isChoice_of_cut hends hinside rfl (mt hcut.1 hbar) hitem

theorem ofExpr_stripParens_iff (e : Text) :
    ofExpr (stripParens e) = ofExpr e ↔
      endsWith ';' (stripParens e) = endsWith ';' (trim e) := by
  have hsemi : ';' ∈ keptSigns := by decide
  cases hend : endsWith ';' (trim e) with
  | true =>
    -- Nothing is taken off an expression that ends in a semicolon.
    have hinside : insideParens? (trim e) = none := by
      cases h : insideParens? (trim e) with
      | none => rfl
      | some inner =>
        rw [eq_of_insideParens? h] at hend
        simp [endsWith, List.getLast?_cons] at hend
    rw [stripParens_of_bare hinside, hend]
    refine iff_of_true ?_ rfl
    rw [ofExpr, ofExpr, bareExpr, bareExpr, trim_trim]
  | false =>
    constructor
    · intro heq
      rw [Bool.eq_false_iff]
      intro hbare
      have hlt := count_dropEndWhile_lt hbare
      have hcount := congrArg (fun r => (written r).count ';') heq
      simp only [count_semicolons_ofExpr, trim_stripParens, dropEndWhile_eq_self hend,
        count_trim hsemi] at hcount
      rw [count_stripParens hsemi] at hlt
      omega
    · intro hbare
      rw [ofExpr_stripParens hbare, ofExpr_of_not_endsWith hend]

/-- Parentheses around a bracketed expression change nothing, and an array of what they hold has an
element with the same shape, but in three cases: the parentheses in a literal close one before it,
an arrow leaves a bar at the top level, or a semicolon ends what some parentheses hold. -/
theorem ofExpr_parenthesized {lit top : Char → Bool} {arrows : Nat}
    (h : Bracketed lit top arrows e) :
    (staysOpen 0 e = true →
      (ofExpr (parenthesized e) = ofExpr e ↔ endsWith ';' (trim e) = false)) ∧
    (staysOpen 0 e = false → cutTop? '|' (parenthesized e) = none →
      ofExpr (parenthesized e) ≠ ofExpr e) ∧
    ((∃ item, ofExpr (parenthesized e ++ ['[', ']']) = .ok (.array item) ∧
        ofExpr item = ofExpr e) ↔
      staysOpen 0 e = true ∧ cutTop? '|' (parenthesized e) = none ∧
        endsWith ';' (stripParens e) = endsWith ';' (trim e)) ∧
    ((∀ c, lit c = true → isNoParen c = true) → staysOpen 0 e = true) ∧
    (arrows = 0 → cutTop? '|' (parenthesized e) = none) := by
  obtain ⟨harray, hnone⟩ := ofExpr_parenthesized_array e
  refine ⟨ofExpr_parenthesized_iff, ofExpr_parenthesized_ne, ⟨?_, ?_⟩, fun hlit => ?_, ?_⟩
  · rintro ⟨item, hitem, heq⟩
    have hcut : cutTop? '|' (parenthesized e) = none := by
      by_contra hbar
      exact hnone hbar item hitem
    rw [harray hcut] at hitem
    cases hopen : staysOpen 0 e with
    | true =>
      rw [hopen] at hitem
      cases hitem
      exact ⟨rfl, hcut, (ofExpr_stripParens_iff e).1 heq⟩
    | false =>
      rw [hopen] at hitem
      cases hitem
      exact absurd heq (ofExpr_parenthesized_ne hopen hcut)
  · rintro ⟨hopen, hcut, hend⟩
    refine ⟨stripParens e, ?_, (ofExpr_stripParens_iff e).2 hend⟩
    rw [harray hcut, if_pos hopen]
  · have hstays := h.staysOpen hlit 0 []
    rwa [List.append_nil] at hstays
  · rintro rfl
    exact h.cutTop?_parenthesized

/-- A name, and an array of a choice with a semicolon in a literal. -/
def modesText : Text := "Mode | (\"a;b\" | Row)[]".toList

theorem bracketed_modesText : Bracketed isNoParen (fun _ => true) 0 modesText := by
  have htext : modesText = "Mode | ".toList ++
      ('(' :: ('"' :: "a;b".toList ++ '"' :: " | Row".toList) ++ ')' :: ('[' :: [] ++ [']'])) := by
    decide
  have hchoice : Bracketed isNoParen (fun _ => true) 0
      ('"' :: "a;b".toList ++ '"' :: " | Row".toList) :=
    .literal (by decide) (by decide) (.of_all (by decide))
  have hmark : Bracketed isNoParen (fun _ => true) (0 + 0) ('[' :: [] ++ [']']) :=
    .brackets (by decide) .nil .nil
  have hname : Bracketed isNoParen (fun _ => true) 0 "Mode | ".toList := .of_all (by decide)
  rw [htext]
  exact hname.append (.brackets (m := 0) (by decide) hchoice hmark)

theorem ofExpr_parenthesized_modes :
    Bracketed isNoParen (fun _ => true) 0 modesText ∧
    ofExpr (parenthesized modesText) = ofExpr modesText ∧
    ∃ item, ofExpr (parenthesized modesText ++ ['[', ']']) = .ok (.array item) ∧
      ofExpr item = ofExpr modesText := by
  obtain ⟨hsame, -, harray, hopen, hcut⟩ := ofExpr_parenthesized bracketed_modesText
  have hstays := hopen fun _ hc => hc
  exact ⟨bracketed_modesText, (hsame hstays).2 (by decide +kernel),
    harray.2 ⟨hstays, hcut rfl, by decide +kernel⟩⟩

/-- A quoted parenthesis keeps the parentheses around it, so that the literal is read as a name. A
bar behind an arrow parts the parentheses, and a semicolon before them stays in the element. -/
theorem ofExpr_parenthesized_exceptions :
    Bracketed (fun _ => true) (fun _ => true) 0 "\")\"".toList ∧
    ofExpr "\")\"".toList = .ok (.enum [")".toList]) ∧
    ofExpr "(\")\")".toList = .ok (.named "(\")\")".toList) ∧
    ofExpr "(() => A | B)[]".toList =
      .ok (.union [.reference "(() => A".toList, .reference "B)[]".toList]) ∧
    ofExpr "(A;)".toList = .ok (.named "A;".toList) ∧
    ofExpr "((A;))[]".toList = .ok (.array "A;".toList) ∧
    ofExpr "A;".toList = .ok (.named "A".toList) := by
  have hliteral : Bracketed (fun _ => true) (fun _ => true) 0 ('"' :: [')'] ++ '"' :: []) :=
    .literal (by decide) (by decide) .nil
  refine ⟨hliteral, ?_, ?_, ?_, ?_, ?_, ?_⟩
  all_goals decide +kernel

end Shape

end InterfaceForms

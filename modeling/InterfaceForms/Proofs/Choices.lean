import InterfaceForms.Proofs.Bracketed
import InterfaceForms.Proofs.CheckedShapes

/-!
# Expressions with one alternative

A bar that a search finds, with something on both sides of it, makes an expression a choice: an enum
or a union. An expression in which none is found has itself as its only alternative, and if it is
not quoted either, it is a record, an array or a name.

* `Text.alternatives_of_uncut`, `Text.two_le_alternatives`: how many alternatives there are.
* `Shape.ofExpr_of_uncut`, `Shape.isChoice_of_cut`: what shape there is.
-/

namespace InterfaceForms

namespace Text

variable {t left right : Text}

theorem alternatives_of_uncut (hsolid : Solid t) (h : cutTop? '|' t = none) :
    alternatives t = [t] := by
  rw [alternatives, splitTop, splitFrom_of_none h, List.map_singleton, hsolid.trim]
  exact List.filter_eq_self.2 fun u hu => by simpa [List.mem_singleton.1 hu] using hsolid.ne_nil

/-- A bar with something on both sides parts two alternatives. -/
theorem two_le_alternatives (h : cutTop? '|' t = some (left, right)) (hleft : blank left = false)
    {c : Char} (hright : c ∈ right) (hbar : c ≠ '|') (hc : isBlank c = false) :
    2 ≤ (alternatives t).length := by
  have hkept : ∀ u : Text, blank u = false → decide (trim u ≠ []) = true := by
    intro u hu
    rw [decide_eq_true_eq, Ne, trim_eq_nil, hu]
    exact Bool.false_ne_true
  obtain ⟨n, hsplit⟩ := splitFrom_of_some h
  obtain ⟨part, hpart, hin⟩ := exists_mem_splitFrom (n := n) hbar hright
  have hrest : trim part ∈ ((splitFrom '|' n right).map trim).filter (· ≠ []) :=
    List.mem_filter.2 ⟨List.mem_map_of_mem hpart, hkept part (not_blank_of_mem hin hc)⟩
  rw [alternatives, splitTop, hsplit, List.map_cons, List.filter_cons, if_pos (hkept left hleft),
    List.length_cons]
  exact Nat.succ_le_succ (List.length_pos_of_mem hrest)

/-- Between two characters that are neither blank nor a bar, a bar parts two alternatives. -/
theorem two_le_alternatives_of_ends {p : Char → Bool} (hp : ∀ c, p c = true → isBlank c = false)
    (hends : t.Ends p p) (hbar : p '|' = false) (h : cutTop? '|' t ≠ none) :
    2 ≤ (alternatives t).length := by
  have hne : ∀ c, p c = true → c ≠ '|' := by
    rintro c hc rfl
    rw [hbar] at hc
    cases hc
  obtain ⟨⟨left, right⟩, hcut⟩ := Option.ne_none_iff_exists'.1 h
  have htext := cutTop?_eq_some hcut
  obtain ⟨⟨c, u, hu, hc⟩, v, d, hv, hd⟩ := hends
  have hleft : blank left = false := by
    cases left with
    | nil =>
      rw [htext, List.nil_append] at hu
      exact absurd (List.cons.inj hu).1.symm (hne c hc)
    | cons c' left =>
      obtain rfl : c' = c := by
        rw [htext, List.cons_append] at hu
        exact (List.cons.inj hu).1
      exact not_blank_of_mem List.mem_cons_self (hp _ hc)
  have hright : d ∈ right := by
    rcases List.eq_nil_or_concat' right with rfl | ⟨right, e, rfl⟩
    · have hlast := (List.append_singleton_inj.1 (htext.symm.trans hv)).2
      exact absurd hlast.symm (hne d hd)
    · have hlast : left ++ '|' :: right ++ [e] = v ++ [d] := by
        rw [← hv, htext]
        simp
      obtain rfl := (List.append_singleton_inj.1 hlast).2
      simp
  exact two_le_alternatives hcut hleft hright (hne d hd) (hp d hd)

end Text

namespace Shape

variable {t : Text}

theorem isChoice_ofArrayOrName (t : Text) : (ofArrayOrName t).isChoice = false := by
  unfold ofArrayOrName
  split
  · rfl
  · rfl

theorem isChoice_ofSingle {s : Shape} (h : ofSingle t = .ok s) : s.isChoice = false := by
  unfold ofSingle at h
  split at h
  · cases h
    exact isChoice_ofArrayOrName t
  split at h
  · cases h
  split at h
  · split at h
    · rename_i shape hargs
      cases h
      unfold ofRecordArguments? at hargs
      split at hargs
      · split at hargs
        · cases hargs
        · cases hargs
          rfl
      · cases hargs
    · cases h
  · cases h
    exact isChoice_ofArrayOrName t

theorem isChoice_of_two_le {ts : List Text} (h : 2 ≤ ts.length) {s : Shape}
    (hs : ofAlternatives ts = .ok s) : s.isChoice = true := by
  obtain ⟨s', hs', hchoice⟩ := isChoice_ofAlternatives h
  obtain rfl := Except.ok.inj (hs.symm.trans hs')
  exact hchoice

theorem ofAlternatives_singleton (h : Text.unquote? t = none) :
    ofAlternatives [t] = ofSingle (Text.stripParens t) := by
  rw [ofAlternatives, h]

/-- An expression that is neither parted by bars nor wrapped or quoted is read as it is. -/
theorem ofExpr_of_uncut (hends : t.Ends opensAlternative closesAlternative)
    (hparens : Text.insideParens? t = none) (hquote : Text.unquote? t = none)
    (h : Text.cutTop? '|' t = none) : ofExpr t = ofSingle t := by
  have hsolid := solid_of_alternatives hends
  have htrim := hsolid.trim
  rw [ofExpr_of_alternatives hends hparens, Text.alternatives_of_uncut hsolid h,
    ofAlternatives_singleton hquote, Text.stripParens_of_bare (by rw [htrim, hparens]), htrim]

/-- A bar that is found makes the expression a choice. -/
theorem isChoice_of_cut (hends : t.Ends opensAlternative closesAlternative)
    (hparens : Text.insideParens? t = none) (hbar : Text.startsWith '|' t = false)
    (h : Text.cutTop? '|' t ≠ none) {s : Shape} (hs : ofExpr t = .ok s) : s.isChoice = true := by
  rw [ofExpr_of_alternatives hends hparens] at hs
  refine isChoice_of_two_le
    (Text.two_le_alternatives_of_ends (p := fun c => !Text.isBlank c && c ≠ '|') ?_ ?_ ?_ h) hs
  · intro c hc
    simp only [Bool.and_eq_true, Bool.not_eq_true'] at hc
    exact hc.1
  · obtain ⟨⟨c, u, rfl, hc⟩, hlast⟩ := hends
    have hne : c ≠ '|' := by simpa [Text.startsWith] using hbar
    simp only [opensAlternative, Bool.and_eq_true] at hc
    refine ⟨⟨c, u, rfl, by simp [hc.1, hne]⟩, ?_⟩
    obtain ⟨v, d, hv, hd⟩ := hlast
    have hbar' : d ≠ '|' := ne_of_class hd (by decide)
    simp only [closesAlternative, Bool.and_eq_true] at hd
    exact ⟨v, d, hv, by simp [hd.1, hbar']⟩
  · decide

end Shape

end InterfaceForms

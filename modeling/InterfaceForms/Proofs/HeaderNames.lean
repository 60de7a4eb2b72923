import InterfaceForms.Proofs.PrintedHeaders
import InterfaceForms.Proofs.PrintedShapes
import Mathlib.Data.List.Basic

/-!
# Names of declarations

The name in a header is a run of word characters. No sign of a type expression is among them, so
that the name, written as a type, is read as a name.

* `Header.isName_of_ofLine?`: the name in a header is such a run.
* `Shape.ofExpr_of_isName`: what it is as a type expression.
-/

namespace InterfaceForms

/-- The text is a name that a header may give. -/
def Header.isName (n : Text) : Bool := n.head?.any startsName && n.all continuesName

namespace Header

variable {n : Text}

theorem continuesName_of_startsName {c : Char} (h : startsName c = true) :
    continuesName c = true :=
  continuesName_of_isNameChar (Text.isNameChar_of_startsName h)

theorem isName_of_ofLine? {line : Text} {h : Header} (hline : ofLine? line = some h) :
    isName h.name = true := by
  simp only [ofLine?, Option.bind_eq_bind, Option.bind_eq_some_iff] at hline
  obtain ⟨line, -, ⟨name, rest⟩, hcut, hline⟩ := hline
  have hname : h.name = name := by
    split at hline
    · cases hline
    · rw [← Option.some.inj hline]
  rw [hname]
  cases line with
  | nil => cases hcut
  | cons c t =>
    rw [cutName?] at hcut
    split at hcut
    · rename_i hc
      obtain rfl := (Prod.mk.inj (Option.some.inj hcut)).1
      have hall : (t.takeWhile continuesName).all continuesName = true :=
        List.all_takeWhile
      simp [isName, hc, continuesName_of_startsName hc, hall]
    · cases hcut

theorem not_mem_of_isName (h : isName n = true) {c : Char} (hc : continuesName c = false) :
    c ∉ n := by
  simp only [isName, Bool.and_eq_true] at h
  intro hmem
  rw [List.all_eq_true.1 h.2 c hmem] at hc
  cases hc

theorem isBlank_of_continuesName {c : Char} (h : continuesName c = true) :
    Text.isBlank c = false :=
  Text.isBlank_of_class (by decide +kernel) h

theorem exists_of_isName (h : isName n = true) : ∃ c t, n = c :: t ∧ startsName c = true := by
  cases n with
  | nil => cases h
  | cons c t =>
    simp only [isName, Bool.and_eq_true] at h
    exact ⟨c, t, rfl, by simpa using h.1⟩

theorem cutName?_of_isName (h : isName n = true) (t : Text) :
    cutName? (n ++ ' ' :: t) = some (n, ' ' :: t) := by
  obtain ⟨c, n, rfl, hc⟩ := exists_of_isName h
  refine cutName?_append hc (fun x hx => ?_) t
  simp only [isName, Bool.and_eq_true] at h
  exact List.all_eq_true.1 h.2 x (List.mem_cons_of_mem c hx)

theorem ends_of_isName (h : isName n = true) : Text.Ends startsName continuesName n := by
  obtain ⟨c, t, rfl, hc⟩ := exists_of_isName h
  refine ⟨⟨c, t, rfl, hc⟩, ?_⟩
  rcases List.eq_nil_or_concat' (c :: t) with hnil | ⟨u, d, hu⟩
  · cases hnil
  · refine ⟨u, d, hu, ?_⟩
    simp only [isName, Bool.and_eq_true] at h
    exact List.all_eq_true.1 h.2 d (by rw [hu]; simp)

theorem solid_of_isName (h : isName n = true) : Text.Solid n :=
  (ends_of_isName h).mono
    (fun c hc => by simp [isBlank_of_continuesName (continuesName_of_startsName hc)])
    (fun c hc => by simp [isBlank_of_continuesName hc])

end Header

theorem Text.splitFrom_of_not_mem {sep : Char} {t : Text} (h : sep ∉ t) (n : Nesting) :
    splitFrom sep n t = [t] := by
  induction t generalizing n with
  | nil => rfl
  | cons c t ih =>
    obtain ⟨hc, ht⟩ := not_or.1 (mt List.mem_cons.2 h)
    rw [splitFrom, if_neg (by simp [Ne.symm hc]), ih ht]
    rfl

/-- The name of a declaration, written as a type, stands for the declaration. -/
theorem Shape.ofExpr_of_isName {n : Text} (h : Header.isName n = true) :
    ofExpr n = .ok (.named n) := by
  have hno : ∀ c, Header.continuesName c = false → c ∉ n := fun c hc =>
    Header.not_mem_of_isName h hc
  have htrim : Text.trim n = n := (Header.solid_of_isName h).trim
  have hend : Text.dropEndWhile (· = ';') n = n :=
    (Header.ends_of_isName h).dropEndWhile fun c hc => by
      obtain rfl : c = ';' := by simpa using hc
      decide +kernel
  have hparens : Text.insideParens? n = none := by
    obtain ⟨c, t, rfl, -⟩ := Header.exists_of_isName h
    have hc : c ≠ '(' := by
      rintro rfl
      exact hno '(' (by decide +kernel) List.mem_cons_self
    simp [Text.insideParens?, hc]
  have hstrip : Text.stripParens n = n := by
    rw [Text.stripParens_of_bare (by rw [htrim, hparens]), htrim]
  have halternatives : Text.alternatives n = [n] := by
    have hne := (Header.ends_of_isName h).ne_nil
    simp [Text.alternatives, Text.splitTop,
      Text.splitFrom_of_not_mem (hno '|' (by decide +kernel)), htrim, hne]
  have hunquote : Text.unquote? n = none := by
    obtain ⟨c, t, rfl, -⟩ := Header.exists_of_isName h
    refine Text.unquote?_of_head ?_ t
    cases hc : isQuoteMark c with
    | false => rfl
    | true =>
      simp only [isQuoteMark, Bool.or_eq_true, decide_eq_true_eq] at hc
      rcases hc with (rfl | rfl) | rfl
      all_goals exact absurd List.mem_cons_self (hno _ (by decide +kernel))
  rw [ofExpr, bareExpr, htrim, hend, hstrip, halternatives]
  simp only [ofAlternatives, hunquote, hstrip]
  exact TypeExpr.ofSingle_of_plain (hno _ (by decide +kernel)) (hno _ (by decide +kernel))

end InterfaceForms

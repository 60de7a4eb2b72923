import InterfaceForms.Files.Search

/-!
# Patterns and the names they match

A pattern is held against a name character by character, with all its ends at once. What it should
accept is said without that: a name matches if it falls into parts for the tokens in turn, any text
for a run and one character for every other token. The search looks up a pattern without wildcards
and does not hold it against names, which comes to the same.

* `Pattern.accepts_iff`: a pattern accepts the names that match it.
* `Pattern.accepts_of_literal?`: a pattern without wildcards accepts one name.
-/

namespace InterfaceForms

/-- A run stands for any text, every other token for one character. -/
def PatternToken.StandsFor (token : PatternToken) (t : Text) : Prop :=
  token.isRun = true ∨ ∃ c, t = [c] ∧ token.acceptsChar c = true

namespace Pattern

/-- The text falls into parts that the tokens stand for, in their order. -/
inductive Matches : Pattern → Text → Prop
  | nil : Matches [] []
  | cons {token : PatternToken} {p : Pattern} {s t : Text} (hs : token.StandsFor s) :
    Matches p t → Matches (token :: p) (s ++ t)

namespace Matches

variable {token : PatternToken} {p : Pattern} {c : Char} {t : Text}

theorem nil_iff : Matches [] t ↔ t = [] := by
  constructor
  · intro h
    cases h
    rfl
  · rintro rfl
    exact .nil

/-- Nothing but runs may stand for the empty text. -/
theorem cons_nil_iff : Matches (token :: p) [] ↔ token.isRun = true ∧ Matches p [] := by
  constructor
  · intro h
    generalize hu : ([] : Text) = u at h
    cases h with
    | @cons _ _ part rest hpart hrest =>
      obtain ⟨rfl, rfl⟩ := List.append_eq_nil_iff.1 hu.symm
      rcases hpart with hrun | ⟨c, hc, -⟩
      · exact ⟨hrun, hrest⟩
      · cases hc
  · rintro ⟨hrun, hrest⟩
    exact .cons (s := []) (.inl hrun) hrest

/-- A run ends before the first character, or the character is in it. -/
theorem run_iff (h : token.isRun = true) :
    Matches (token :: p) (c :: t) ↔ Matches p (c :: t) ∨ Matches (token :: p) t := by
  constructor
  · intro hmatch
    generalize hu : c :: t = u at hmatch
    cases hmatch with
    | @cons _ _ part rest hpart hrest =>
      cases part with
      | nil => exact .inl hrest
      | cons d part =>
        obtain ⟨rfl, rfl⟩ := List.cons.inj hu
        exact .inr (.cons (.inl h) hrest)
  · rintro (hrest | hmatch)
    · exact .cons (s := []) (.inl h) hrest
    · generalize hp : token :: p = q at hmatch
      cases hmatch with
      | nil => cases hp
      | @cons _ _ part rest hpart hrest =>
        obtain ⟨rfl, rfl⟩ := List.cons.inj hp
        exact .cons (s := c :: part) (.inl h) hrest

theorem char_iff (h : token.isRun = false) :
    Matches (token :: p) (c :: t) ↔ token.acceptsChar c = true ∧ Matches p t := by
  constructor
  · intro hmatch
    generalize hu : c :: t = u at hmatch
    cases hmatch with
    | @cons _ _ part rest hpart hrest =>
      rcases hpart with hrun | ⟨d, rfl, hd⟩
      · rw [h] at hrun
        cases hrun
      · obtain ⟨rfl, rfl⟩ := List.cons.inj hu
        exact ⟨hd, hrest⟩
  · rintro ⟨hc, hrest⟩
    exact .cons (s := [c]) (.inr ⟨c, rfl, hc⟩) hrest

end Matches

variable {p : Pattern}

/-- A pattern accepts the names that match it. -/
theorem accepts_iff (p : Pattern) (t : Text) : p.accepts t = true ↔ p.Matches t := by
  induction p generalizing t with
  | nil => rw [accepts_nil, Matches.nil_iff, decide_eq_true_eq]
  | cons token p ih =>
    induction t with
    | nil => rw [accepts_cons_nil, Bool.and_eq_true, ih, Matches.cons_nil_iff]
    | cons c t iht =>
      cases h : token.isRun with
      | true => rw [accepts_run h, Bool.or_eq_true, ih, iht, Matches.run_iff h]
      | false => rw [accepts_char h, Bool.and_eq_true, ih, Matches.char_iff h]

theorem eq_map_of_literal? {name : Text} (h : p.literal? = some name) : p = name.map .char := by
  induction p generalizing name with
  | nil =>
    obtain rfl := Option.some.inj h
    rfl
  | cons token p ih =>
    rw [literal?, List.mapM_cons] at h
    simp only [Option.bind_eq_bind, Option.bind_eq_some_iff] at h
    obtain ⟨c, hc, rest, hrest, h⟩ := h
    obtain rfl := Option.some.inj h
    rw [List.map_cons, ← ih hrest]
    cases token with
    | char d =>
      obtain rfl := Option.some.inj hc
      rfl
    | _ => cases hc

/-- What is looked up in the place of a pattern is the one name that it accepts. -/
theorem accepts_of_literal? {name : Text} (h : p.literal? = some name) (t : Text) :
    p.accepts t = true ↔ t = name := by
  obtain rfl := eq_map_of_literal? h
  clear h
  induction name generalizing t with
  | nil => rw [List.map_nil, accepts_nil, decide_eq_true_eq]
  | cons c name ih =>
    have hrun : (PatternToken.char c).isRun = false := rfl
    rw [List.map_cons]
    cases t with
    | nil => simp [accepts_cons_nil, hrun]
    | cons d t =>
      have hchar : (PatternToken.char c).acceptsChar d = true ↔ d = c :=
        decide_eq_true_iff.trans eq_comm
      rw [accepts_char hrun, Bool.and_eq_true, hchar, ih, List.cons.injEq]

end Pattern

end InterfaceForms

import InterfaceForms.Text.Basic

/-!
# Parentheses around a whole expression

A pair of parentheses says nothing when it wraps the whole expression. That it does is seen from
the text inside: no parenthesis of it closes one opened before it.

* `Text.length_stripParens_le`: what is left is no longer than the text.
-/

namespace InterfaceForms.Text

/-- No closing parenthesis of the text finds fewer than one open, with `depth` open before. -/
def staysOpen (depth : Nat) : Text → Bool
  | [] => true
  | c :: t =>
    if c = '(' then staysOpen (depth + 1) t
    else if c = ')' then
      match depth with
      | 0 => false
      | depth + 1 => staysOpen depth t
    else staysOpen depth t

/-- The text inside a pair of parentheses that wraps the whole text. -/
def insideParens? : Text → Option Text
  | [] => none
  | c :: t =>
    if c = '(' && t.getLast? = some ')' && staysOpen 0 t.dropLast then some t.dropLast else none

theorem eq_of_insideParens? {t inner : Text} (h : insideParens? t = some inner) :
    t = '(' :: inner ++ [')'] := by
  cases t with
  | nil => simp [insideParens?] at h
  | cons c t =>
    simp only [insideParens?, Option.ite_none_right_eq_some, Bool.and_eq_true,
      decide_eq_true_eq, Option.some.injEq] at h
    obtain ⟨⟨⟨rfl, hlast⟩, _⟩, rfl⟩ := h
    obtain ⟨u, rfl⟩ := List.getLast?_eq_some_iff.1 hlast
    simp

/-- Takes off the blanks and wrapping parentheses on the outside, as often as there are some. -/
def stripParens (t : Text) : Text :=
  match _h : insideParens? (trim t) with
  | some inner => stripParens inner
  | none => trim t
termination_by t.length
decreasing_by
  have hlen := length_trim_le t
  rw [eq_of_insideParens? _h] at hlen
  simp only [List.cons_append, List.length_cons, List.length_append] at hlen
  omega

theorem stripParens_of_inside {t inner : Text} (h : insideParens? (trim t) = some inner) :
    stripParens t = stripParens inner := by
  rw [stripParens]
  split
  · rename_i inner' h'
    rw [h] at h'
    rw [Option.some.inj h']
  · rename_i h'
    rw [h] at h'
    cases h'

theorem stripParens_of_bare {t : Text} (h : insideParens? (trim t) = none) :
    stripParens t = trim t := by
  rw [stripParens]
  split
  · rename_i h'
    rw [h] at h'
    cases h'
  · rfl

theorem length_stripParens_le (t : Text) : (stripParens t).length ≤ t.length := by
  fun_induction stripParens t with
  | case1 t inner h ih =>
    have hlen := length_trim_le t
    rw [eq_of_insideParens? h] at hlen
    simp only [List.cons_append, List.length_cons, List.length_append] at hlen
    omega
  | case2 t h => exact length_trim_le t

end InterfaceForms.Text

import InterfaceForms.Text.Basic

/-!
# Quoted literals in a type expression

A literal stands between two equal quotation marks, and a mark after a backslash does not close
it. `Quoting` is what a reader of an expression knows after each character: the mark of the
literal it is in, if any, and the character read last.
-/

namespace InterfaceForms

/-- The quotation marks are the double quote, the apostrophe and the backtick. -/
def isQuoteMark (c : Char) : Bool := c = '"' || c = '\x27' || c = '\x60'

structure Quoting where
  mark? : Option Char
  last : Char
  deriving DecidableEq, Repr

namespace Quoting

def start : Quoting := ⟨none, '\x00'⟩

/-- Inside a literal. -/
def inside (q : Quoting) : Bool := q.mark?.isSome

def step (q : Quoting) (c : Char) : Quoting :=
  match q.mark? with
  | some m => ⟨if c = m && q.last ≠ '\\' then none else some m, c⟩
  | none => ⟨if isQuoteMark c then some c else none, c⟩

end Quoting

namespace Text

/-- The text between two equal quotation marks. -/
def unquote? : Text → Option Text
  | [] => none
  | c :: t => if isQuoteMark c && t.getLast? = some c then some t.dropLast else none

/-- Cuts at the first `//` outside literals: the code before it and what follows it. -/
def cutComment? (q : Quoting) : Text → Option (Text × Text)
  | [] => none
  | c :: t =>
    if !q.inside && c = '/' && t.head? = some '/' then some ([], t.tail)
    else (cutComment? (q.step c) t).map fun (code, comment) => (c :: code, comment)

theorem eq_of_cutComment? {q : Quoting} {t code comment : Text}
    (h : cutComment? q t = some (code, comment)) : t = code ++ '/' :: '/' :: comment := by
  induction t generalizing q code with
  | nil => simp [cutComment?] at h
  | cons c t ih =>
    unfold cutComment? at h
    split at h
    · rename_i hc
      simp only [Bool.and_eq_true, decide_eq_true_eq] at hc
      obtain ⟨⟨_, rfl⟩, ht⟩ := hc
      obtain ⟨u, rfl⟩ := List.head?_eq_some_iff.1 ht
      simp only [List.tail_cons, Option.some.injEq, Prod.mk.injEq] at h
      obtain ⟨rfl, rfl⟩ := h
      rfl
    · obtain ⟨⟨code', comment'⟩, hc, heq⟩ := Option.map_eq_some_iff.1 h
      simp only [Prod.mk.injEq] at heq
      obtain ⟨rfl, rfl⟩ := heq
      rw [ih hc, List.cons_append]

end Text

end InterfaceForms

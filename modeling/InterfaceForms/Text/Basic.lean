import InterfaceForms.Text.Blank

/-!
# Texts

A text is the list of its characters: every rule of this library reads or writes one character
at a time. This module holds the trimming of texts, their joining, and their cutting into lines.

* `Text.length_trim_le`: trimming never lengthens a text.
* `Text.trim_append_of_blank`: blank characters at the end do not change what trimming leaves.
-/

namespace InterfaceForms

abbrev Text := List Char

namespace Text

/-- The text as a string, for printing. -/
def str (t : Text) : String := String.ofList t

/-- The decimal digits of a number. -/
def ofNat (n : Nat) : Text := Nat.toDigits 10 n

/-! ## Trimming -/

def trimStart (t : Text) : Text := t.dropWhile isBlank

/-- Drops the longest run of characters satisfying `p` at the end. -/
def dropEndWhile (p : Char → Bool) (t : Text) : Text := (t.reverse.dropWhile p).reverse

def trimEnd (t : Text) : Text := dropEndWhile isBlank t

def trim (t : Text) : Text := trimEnd (trimStart t)

/-- Only blank characters, or none at all. -/
def blank (t : Text) : Bool := t.all isBlank

def startsWith (c : Char) (t : Text) : Bool := t.head? = some c

def endsWith (c : Char) (t : Text) : Bool := t.getLast? = some c

/-- Whether all the characters of a text have a property is decided along the text, not by a search
through every character there is. -/
instance decidableForallMem (p : Char → Prop) [DecidablePred p] (t : Text) :
    Decidable (∀ c ∈ t, p c) :=
  List.decidableBAll p t

theorem length_dropWhile_le (p : Char → Bool) (t : Text) : (t.dropWhile p).length ≤ t.length :=
  (List.dropWhile_sublist p).length_le

theorem length_dropEndWhile_le (p : Char → Bool) (t : Text) :
    (dropEndWhile p t).length ≤ t.length := by
  simpa [dropEndWhile] using length_dropWhile_le p t.reverse

theorem length_trim_le (t : Text) : (trim t).length ≤ t.length :=
  Nat.le_trans (length_dropEndWhile_le _ _) (length_dropWhile_le _ _)

theorem dropWhile_eq_nil_of_all {p : Char → Bool} {t : Text} (h : t.all p = true) :
    t.dropWhile p = [] := by
  induction t with
  | nil => rfl
  | cons c t ih => simp_all

theorem dropEndWhile_cons {p : Char → Bool} {c : Char} (hc : p c = false) (t : Text) :
    dropEndWhile p (c :: t) = c :: dropEndWhile p t := by
  simp only [dropEndWhile, List.reverse_cons, List.dropWhile_append]
  by_cases h : (t.reverse.dropWhile p).isEmpty = true
  · rw [if_pos h]
    rw [List.isEmpty_iff] at h
    simp [h, hc]
  · rw [if_neg h]
    simp

theorem dropEndWhile_append_of_all {p : Char → Bool} {t u : Text} (h : u.all p = true) :
    dropEndWhile p (t ++ u) = dropEndWhile p t := by
  simp only [dropEndWhile, List.reverse_append]
  rw [List.dropWhile_append_of_pos]
  simpa using h

theorem trim_append_of_blank {t u : Text} (h : blank u = true) : trim (t ++ u) = trim t := by
  unfold trim trimStart trimEnd
  rw [List.dropWhile_append]
  split
  · rename_i ht
    have ht' : List.dropWhile isBlank t = [] := by simpa using ht
    rw [dropWhile_eq_nil_of_all h, ht']
  · exact dropEndWhile_append_of_all h

/-! ## Lines and words -/

/-- The texts one after another with `sep` between two of them. -/
def joinWith (sep : Text) (ts : List Text) : Text := sep.intercalate ts

/-- The pieces between newlines; a text without a newline is one piece. -/
def splitLines : Text → List Text
  | [] => [[]]
  | '\n' :: t => [] :: splitLines t
  | c :: t => (splitLines t).modifyHead (c :: ·)

/-- What follows `start` when the text begins with it. -/
def dropStart? (start : Text) (t : Text) : Option Text :=
  if start.isPrefixOf t then some (t.drop start.length) else none

theorem dropStart?_eq_some {start t rest : Text} :
    dropStart? start t = some rest ↔ t = start ++ rest := by
  unfold dropStart?
  split
  · rename_i h
    obtain ⟨u, rfl⟩ := List.isPrefixOf_iff_prefix.1 h
    simp [eq_comm]
  · rename_i h
    simp only [reduceCtorEq, false_iff]
    rintro rfl
    exact h (List.isPrefixOf_iff_prefix.2 (List.prefix_append _ _))

end Text

end InterfaceForms

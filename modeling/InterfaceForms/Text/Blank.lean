import InterfaceForms.Text.Ranges

/-!
# Blank characters

The characters with the Unicode property White_Space. They separate words, and they are what
trimming takes off both ends of a text. The byte order mark U+FEFF and the zero width space
U+200B are not among them.
-/

namespace InterfaceForms.Text

/-- The blank characters beyond ASCII. -/
def blankRanges : List (Nat × Nat) := [
  (0x85, 0x85), (0xa0, 0xa0), (0x1680, 0x1680), (0x2000, 0x200a), (0x2028, 0x2029),
  (0x202f, 0x202f), (0x205f, 0x205f), (0x3000, 0x3000)]

/-- The blanks of ASCII are the space and U+0009 to U+000D. -/
def isBlank (c : Char) : Bool :=
  c = ' ' || (9 ≤ c.toNat && c.toNat ≤ 13) || inRanges blankRanges c

/-- The code points of the blanks. -/
def blankCodes : List Nat :=
  (' '.toNat :: List.range' 9 5) ++ blankRanges.flatMap fun r => List.range' r.1 (r.2 + 1 - r.1)

theorem toNat_mem_blankCodes {c : Char} (h : isBlank c = true) : c.toNat ∈ blankCodes := by
  simp only [isBlank, Bool.or_eq_true, decide_eq_true_eq, Bool.and_eq_true, inRanges_iff] at h
  rw [blankCodes, List.mem_append, List.mem_cons, List.mem_range'_1, List.mem_flatMap]
  rcases h with (rfl | hascii) | ⟨r, hr, hlow, hhigh⟩
  · exact .inl (.inl rfl)
  · exact .inl (.inr ⟨hascii.1, by omega⟩)
  · refine .inr ⟨r, hr, ?_⟩
    rw [List.mem_range'_1]
    omega

/-- A character of a class that holds no blank is not blank. -/
theorem isBlank_of_class {p : Char → Bool} (h : ∀ n ∈ blankCodes, p (Char.ofNat n) = false)
    {c : Char} (hc : p c = true) : isBlank c = false := by
  cases hblank : isBlank c with
  | false => rfl
  | true =>
    have hnot := h c.toNat (toNat_mem_blankCodes hblank)
    rw [Char.ofNat_toNat, hc] at hnot
    cases hnot

end InterfaceForms.Text

import InterfaceForms.Proofs.PrintedTypes

/-!
# Printed headers

A header begins with one of a few words and a blank. In the line of a member another sign follows
the first word, so that a member may have any name, even `type`.

* `Header.ofLine?_of_sign`: such a line is no header.
* `Header.ofLine?_of_word`: the header that opens a declaration.
-/

namespace InterfaceForms

namespace Text

/-- No word with a blank after it begins a text whose first word another sign follows. No blank
satisfies `p`. -/
theorem dropWord?_of_sign {p : Char → Bool} (hp : ∀ c, p c = true → isBlank c = false)
    {w n t : Text} {d : Char} (hw : w.all p = true) (hn : n.all p = true) (hd : p d = false)
    (hblank : isBlank d = false) : dropWord? w (n ++ d :: t) = none := by
  unfold dropWord?
  split
  · rename_i c rest hdrop
    split
    · rename_i hc
      have hname : p c = false := by
        rw [Bool.eq_false_iff]
        intro hname
        rw [hp c hname] at hc
        cases hc
      rw [← sign_eq hw hn hname hd (dropStart?_eq_some.1 hdrop), hblank] at hc
      cases hc
    · rfl
  · rfl

theorem dropWord?_append (w t : Text) : dropWord? w (w ++ ' ' :: t) = some (trimStart t) := by
  have hdrop : dropStart? w (w ++ ' ' :: t) = some (' ' :: t) := dropStart?_eq_some.2 rfl
  have hspace : isBlank ' ' = true := by decide
  simp [dropWord?, hdrop, hspace]

end Text

namespace Header

/-- A line without a blank after its first word is no header. The words of headers satisfy `p`,
and no blank does. -/
theorem ofLine?_of_run {p : Char → Bool} (hp : ∀ c, p c = true → Text.isBlank c = false)
    (hwords : ∀ w ∈ ["export", "declare", "interface", "type"], w.toList.all p = true)
    {n t : Text} {d : Char} (hn : n.all p = true) (hd : p d = false)
    (hblank : Text.isBlank d = false) : ofLine? (n ++ d :: t) = none := by
  have hword : ∀ w ∈ ["export", "declare", "interface", "type"],
      Text.dropWord? w.toList (n ++ d :: t) = none :=
    fun w hw => Text.dropWord?_of_sign hp (hwords w hw) hn hd hblank
  simp only [ofLine?, hword _ List.mem_cons_self,
    hword "declare" (by decide), hword "interface" (by decide), hword "type" (by decide),
    Option.getD_none]
  rfl

theorem ofLine?_of_sign {n t : Text} {d : Char} (hn : n.all isNameChar = true)
    (hd : isNameChar d = false) (hblank : Text.isBlank d = false) :
    ofLine? (n ++ d :: t) = none :=
  ofLine?_of_run (fun _ => Text.isBlank_of_isNameChar) (by decide) hn hd hblank

theorem continuesName_of_isNameChar {c : Char} (h : isNameChar c = true) :
    continuesName c = true := by
  simp only [isNameChar, Bool.or_eq_true, decide_eq_true_eq] at h
  rcases h with (h | rfl) | rfl
  · simp [continuesName, Text.isWordChar_of_isAlphanum h]
  · simp [continuesName, Text.isWordChar]
  · simp [continuesName]

theorem cutName?_append {c : Char} {n : Text} (hc : startsName c = true)
    (hn : ∀ x ∈ n, continuesName x = true) (t : Text) :
    cutName? (c :: n ++ ' ' :: t) = some (c :: n, ' ' :: t) := by
  have hspace : continuesName ' ' = false := by decide +kernel
  simp [cutName?, hc, List.takeWhile_append_of_pos hn, List.dropWhile_append_of_pos hn, hspace]

/-- The header of a declaration whose name is cut off. -/
theorem ofLine?_of_cutName? {w : String} (hw : w = "interface" ∨ w = "type") {n rest : Text}
    (hn : n.Solid) (hcut : cutName? (n ++ ' ' :: rest) = some (n, ' ' :: rest))
    (hrest : rest.Solid) (hline : '\n' ∉ rest) :
    ofLine? (w.toList ++ ' ' :: (n ++ ' ' :: rest)) = some ⟨n, rest⟩ := by
  have hsolid : Text.Solid (n ++ ' ' :: rest) := by
    simpa using hn.append hrest [' ']
  have hdrop : (Text.dropWord? "interface".toList (w.toList ++ ' ' :: (n ++ ' ' :: rest)) <|>
      Text.dropWord? "type".toList (w.toList ++ ' ' :: (n ++ ' ' :: rest))) =
      some (n ++ ' ' :: rest) := by
    have hsome := Text.dropWord?_append w.toList (n ++ ' ' :: rest)
    rw [hsolid.trimStart] at hsome
    rcases hw with rfl | rfl
    · rw [hsome]
      rfl
    · rw [hsome]
      rfl
  have hother : ∀ v ∈ ["export", "declare"],
      Text.dropWord? v.toList (w.toList ++ ' ' :: (n ++ ' ' :: rest)) = none := by
    intro v hv
    simp only [List.mem_cons, List.not_mem_nil, or_false] at hv
    rcases hw with rfl | rfl <;> rcases hv with rfl | rfl <;> rfl
  have hstart : Text.trimStart (' ' :: rest) = rest := by
    have hspace : Text.isBlank ' ' = true := by decide
    simpa [Text.trimStart, hspace] using hrest.trimStart
  have hcontains : rest.contains '\n' = false := by simpa using hline
  simp only [ofLine?, hother _ List.mem_cons_self,
    hother _ (List.mem_cons_of_mem _ List.mem_cons_self), Option.getD_none, hdrop,
    hcut, hstart, hrest.trim, hcontains, Option.bind_eq_bind, Option.bind_some,
    Bool.false_eq_true, if_false]

/-- The header of a declaration. -/
theorem ofLine?_of_word {w : String} (hw : w = "interface" ∨ w = "type") {n rest : Text}
    (hn : IsName n) (hrest : rest.Solid) (hline : '\n' ∉ rest) :
    ofLine? (w.toList ++ ' ' :: (n ++ ' ' :: rest)) = some ⟨n, rest⟩ := by
  refine ofLine?_of_cutName? hw hn.solid ?_ hrest hline
  cases n with
  | nil => cases hn
  | cons c n =>
    exact cutName?_append hn.1
      (fun x hx => continuesName_of_isNameChar (List.all_eq_true.1 hn.2 x hx)) _

end Header

end InterfaceForms

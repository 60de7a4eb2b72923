import InterfaceForms.Proofs.Grammar

/-!
# Solid texts

A solid text has a first and a last character, and neither is blank, so that trimming takes off
just what stands around it. Names, printed types and the lines of comments are solid.

* `Text.Solid.trim_between`: trimming finds a solid text between blanks.
* `Text.solid_of_trim`: a text that trimming leaves alone is solid.
-/

namespace InterfaceForms

namespace Text

/-- The text has a first character, which satisfies `p`, and a last one, which satisfies `q`. -/
structure Ends (p q : Char → Bool) (t : Text) : Prop where
  first : ∃ c u, t = c :: u ∧ p c = true
  last : ∃ u c, t = u ++ [c] ∧ q c = true

namespace Ends

variable {p q : Char → Bool} {t u : Text}

theorem ne_nil (h : Ends p q t) : t ≠ [] := by
  obtain ⟨c, u, rfl, _⟩ := h.first
  exact List.cons_ne_nil c u

theorem append (ht : Ends p q t) (hu : Ends p q u) (mid : Text) : Ends p q (t ++ mid ++ u) := by
  obtain ⟨c, t', rfl, hc⟩ := ht.first
  obtain ⟨u', d, rfl, hd⟩ := hu.last
  exact ⟨⟨c, t' ++ mid ++ (u' ++ [d]), rfl, hc⟩,
    ⟨c :: t' ++ mid ++ u', d, by simp only [List.append_assoc], hd⟩⟩

theorem append_char {d : Char} (ht : Ends p q t) (hd : q d = true) (mid : Text) :
    Ends p q (t ++ (mid ++ [d])) := by
  obtain ⟨c, t', rfl, hc⟩ := ht.first
  exact ⟨⟨c, t' ++ (mid ++ [d]), rfl, hc⟩, ⟨c :: t' ++ mid, d, by simp, hd⟩⟩

/-- A text between two characters. -/
theorem between {c d : Char} (hc : p c = true) (hd : q d = true) (t : Text) :
    Ends p q (c :: t ++ [d]) :=
  ⟨⟨c, t ++ [d], rfl, hc⟩, ⟨c :: t, d, rfl, hd⟩⟩

theorem mono {p' q' : Char → Bool} (h : Ends p q t) (hp : ∀ c, p c = true → p' c = true)
    (hq : ∀ c, q c = true → q' c = true) : Ends p' q' t := by
  obtain ⟨⟨c, u, hcu, hc⟩, ⟨u', d, hud, hd⟩⟩ := h
  exact ⟨⟨c, u, hcu, hp c hc⟩, ⟨u', d, hud, hq d hd⟩⟩

theorem endsWith (h : Ends p q t) {c : Char} (hc : q c = false) : Text.endsWith c t = false := by
  obtain ⟨u, d, rfl, hd⟩ := h.last
  have hne : d ≠ c := by
    rintro rfl
    rw [hc] at hd
    cases hd
  simp [Text.endsWith, hne]

/-- Nothing is dropped from a text that ends in another character. -/
theorem dropEndWhile (h : Ends p q t) {r : Char → Bool} (hr : ∀ c, r c = true → q c = false) :
    Text.dropEndWhile r t = t := by
  obtain ⟨u, d, rfl, hd⟩ := h.last
  have hkept : r d = false := by
    rw [Bool.eq_false_iff]
    intro hrd
    rw [hr d hrd] at hd
    cases hd
  simp [Text.dropEndWhile, hkept]

end Ends

/-- The first and the last character are not blank. -/
abbrev Solid (t : Text) : Prop := Ends (fun c => !isBlank c) (fun c => !isBlank c) t

theorem endsWith_append {u : Text} (h : u ≠ []) (c : Char) (t : Text) :
    endsWith c (t ++ u) = endsWith c u := by
  have hlast : (t ++ u).getLast? = u.getLast? := by
    rw [List.getLast?_append, Option.or_of_isSome (by simpa using h)]
  rw [endsWith, endsWith, hlast]

theorem trim_append {b : Text} (h : blank b = true) (t : Text) : trim (b ++ t) = trim t := by
  rw [trim, trim, trimStart, trimStart, List.dropWhile_append, dropWhile_eq_nil_of_all h]
  rfl

namespace Solid

variable {t : Text}

theorem singleton {c : Char} (h : isBlank c = false) : Solid [c] :=
  ⟨⟨c, [], rfl, by simp [h]⟩, ⟨[], c, rfl, by simp [h]⟩⟩

theorem trimStart (h : Solid t) : Text.trimStart t = t := by
  obtain ⟨c, u, rfl, hc⟩ := h.first
  simp only [Bool.not_eq_true'] at hc
  simp [Text.trimStart, hc]

theorem trimEnd (h : Solid t) : Text.trimEnd t = t := h.dropEndWhile fun c hc => by simp [hc]

theorem trim (h : Solid t) : Text.trim t = t := by
  rw [Text.trim, h.trimStart, h.trimEnd]

theorem trimEnd_append (h : Solid t) {e : Text} (he : blank e = true) :
    Text.trimEnd (t ++ e) = t := by
  rw [Text.trimEnd, dropEndWhile_append_of_all he]
  exact h.trimEnd

theorem trim_between (h : Solid t) {b e : Text} (hb : blank b = true) (he : blank e = true) :
    Text.trim (b ++ t ++ e) = t := by
  rw [trim_append_of_blank he, trim_append hb, h.trim]

theorem trim_space (h : Solid t) : Text.trim (' ' :: t) = t := by
  have htrim := h.trim_between (b := [' ']) (e := []) (by decide) rfl
  rwa [List.append_nil] at htrim

theorem not_blank (h : Solid t) : Text.blank t = false := by
  obtain ⟨c, u, rfl, hc⟩ := h.first
  simp only [Bool.not_eq_true'] at hc
  simp [Text.blank, hc]

end Solid

theorem solid_of_trim {t : Text} (h : trim t = t) (hne : t ≠ []) : Solid t := by
  constructor
  · obtain ⟨c, u, rfl⟩ := List.exists_cons_of_ne_nil hne
    refine ⟨c, u, rfl, ?_⟩
    cases hc : isBlank c with
    | false => rfl
    | true =>
      have hblank : blank [c] = true := by simp [blank, hc]
      have htrim : trim (c :: u) = trim u := trim_append hblank u
      have hlen := length_trim_le u
      rw [← htrim, h, List.length_cons] at hlen
      omega
  · have hlast : t = t.dropLast ++ [t.getLast hne] := (List.dropLast_concat_getLast hne).symm
    refine ⟨t.dropLast, t.getLast hne, hlast, ?_⟩
    cases hc : isBlank (t.getLast hne) with
    | false => rfl
    | true =>
      have hblank : blank [t.getLast hne] = true := by simp [blank, hc]
      have htrim := trim_append_of_blank (t := t.dropLast) hblank
      have hlen := length_trim_le t.dropLast
      rw [← htrim, ← hlast, h] at hlen
      have hpos := List.length_pos_iff.2 hne
      rw [List.length_dropLast] at hlen
      omega

end Text

theorem IsLine.solid {t : Text} (h : IsLine t) : t.Solid := Text.solid_of_trim h.trimmed h.ne_nil

namespace Text

/-! ## Names -/

theorem isNameChar_of_startsName {c : Char} (h : Header.startsName c = true) :
    isNameChar c = true := by
  simp only [Header.startsName, Bool.or_eq_true, decide_eq_true_eq] at h
  rcases h with (h | rfl) | rfl
  · simp [isNameChar, Char.isAlphanum, h]
  · rfl
  · rfl

theorem isBlank_of_isNameChar {c : Char} (h : isNameChar c = true) : isBlank c = false :=
  isBlank_of_class (by decide) h

/-- Where two runs of characters that satisfy `p` begin a text, the same sign ends them. -/
theorem sign_eq {p : Char → Bool} {w n t u : Text} {c d : Char} (hw : w.all p = true)
    (hn : n.all p = true) (hc : p c = false) (hd : p d = false)
    (h : n ++ d :: t = w ++ c :: u) : d = c := by
  have htext := congrArg (List.dropWhile p) h
  rw [List.dropWhile_append_of_pos (List.all_eq_true.1 hn),
    List.dropWhile_append_of_pos (List.all_eq_true.1 hw)] at htext
  simp only [List.dropWhile_cons, hc, hd, Bool.false_eq_true, if_false,
    List.cons.injEq] at htext
  exact htext.1

end Text

end InterfaceForms

import InterfaceForms.Proofs.Bracketed
import InterfaceForms.Proofs.Slices

/-!
# Parts at the top level

A separator at the top level parts a text in two, and each side is parted as if it stood alone: at
a separator no literal is open and no bracket is counted, whether the brackets of the text stand in
pairs or not. So a part has no separator at its own top level, and is not parted again.

* `Text.splitTop_append`: what stands before a separator and what follows it are parted apart.
* `Text.cutTop?_of_mem_splitTop`: no part has a separator at its top level.
* `Text.splitTop_exact`: joining, parting and searching agree.
-/

namespace InterfaceForms

namespace Text

/-- The signs at which expressions are parted. -/
def separators : Text := ['|', ',', ':']

theorem isPlain_of_mem_separators : ∀ {sep : Char}, sep ∈ separators → isPlain sep = true := by
  decide

variable {sep : Char} {n : Nesting} {t left right : Text}

/-! ## Behind a separator -/

/-- Behind a separator at the top level nothing is open, as at the beginning; only the character
read last is another, which counts inside a literal alone. -/
theorem step_sep (hsep : isPlain sep = true) (hn : n.top = true) :
    (n.step sep).quoting.inside = false ∧ n.step sep = ⟨n.quoting.step sep, 0⟩ := by
  simp only [Nesting.top, Bool.and_eq_true, Bool.not_eq_true', decide_eq_true_eq] at hn
  refine ⟨Nesting.inside_step_outside hn.1 (not_isQuoteMark_of_isPlain hsep), ?_⟩
  have hdepth := Nesting.depth_step_outside hn.1 sep
  rw [hn.2, bracketDelta_of_isPlain hsep, Int.add_zero] at hdepth
  rw [← hdepth]
  rfl

theorem splitFrom_step_sep (hsep : isPlain sep = true) (hn : n.top = true) (t : Text) :
    splitFrom sep (n.step sep) t = splitTop sep t := by
  obtain ⟨hout, hstep⟩ := step_sep hsep hn
  rw [hstep] at hout ⊢
  exact (Passes.splitFrom hsep).outside 0 _ t hout

theorem cutFrom?_step_sep (hsep : isPlain sep = true) (hn : n.top = true) (t : Text) :
    cutFrom? sep (n.step sep) t = cutTop? sep t := by
  obtain ⟨hout, hstep⟩ := step_sep hsep hn
  rw [hstep] at hout ⊢
  exact (Passes.cutFrom? hsep).outside 0 _ t hout

/-! ## The two sides of a separator -/

theorem splitFrom_append_sep (hsep : isPlain sep = true) (before after : Text)
    (hn : (n.run before).top = true) :
    splitFrom sep n (before ++ sep :: after) = splitFrom sep n before ++ splitTop sep after := by
  induction before generalizing n with
  | nil =>
    have htop : n.top = true := hn
    have hcut : (n.top && sep = sep) = true := by simp [htop]
    have hnil : splitFrom sep n [] = [[]] := rfl
    rw [List.nil_append, hnil, splitFrom, if_pos hcut, splitFrom_step_sep hsep htop]
    rfl
  | cons c before ih =>
    have hrest := ih (n := n.step c) hn
    rw [List.cons_append, splitFrom, splitFrom, hrest]
    split
    · rfl
    · obtain ⟨first, more, hparts⟩ :=
        List.exists_cons_of_ne_nil (splitFrom_ne_nil sep (n.step c) before)
      rw [hparts]
      rfl

/-- A separator at the top level parts the text in two, which are parted apart. -/
theorem splitTop_append (hsep : isPlain sep = true) {before : Text}
    (hn : (Nesting.start.run before).top = true) (after : Text) :
    splitTop sep (before ++ sep :: after) = splitTop sep before ++ splitTop sep after :=
  splitFrom_append_sep hsep before after hn

/-! ## The first separator -/

/-- The first separator stands at the top level, and before it there is none. -/
theorem top_of_cutFrom? (h : cutFrom? sep n t = some (left, right)) :
    (n.run left).top = true ∧ cutFrom? sep n left = none := by
  induction t generalizing n left with
  | nil => cases h
  | cons c t ih =>
    rw [cutFrom?] at h
    split at h
    · rename_i hcut
      obtain ⟨rfl, rfl⟩ := Prod.mk.inj (Option.some.inj h)
      simp only [Bool.and_eq_true, decide_eq_true_eq] at hcut
      exact ⟨hcut.1, rfl⟩
    · rename_i hcut
      obtain ⟨⟨left, right⟩, hrest, heq⟩ := Option.map_eq_some_iff.1 h
      obtain ⟨rfl, rfl⟩ := Prod.mk.inj heq
      obtain ⟨htop, hnone⟩ := ih hrest
      exact ⟨htop, cutFrom?_cons_eq_none.2 ⟨by simpa using hcut, hnone⟩⟩

/-- The text before the first separator is the first part, and the others are those of the text
after it. -/
theorem splitTop_of_cutTop? (hsep : isPlain sep = true) (h : cutTop? sep t = some (left, right)) :
    splitTop sep t = left :: splitTop sep right := by
  obtain ⟨htop, hnone⟩ := top_of_cutFrom? h
  rw [cutTop?_eq_some h, splitTop_append hsep htop, splitTop, splitFrom_of_none hnone]
  rfl

theorem cutTop?_eq_none_iff (hsep : isPlain sep = true) :
    cutTop? sep t = none ↔ (splitTop sep t).length = 1 := by
  constructor
  · intro h
    rw [splitTop, splitFrom_of_none h]
    rfl
  · intro hlength
    cases hcut : cutTop? sep t with
    | none => rfl
    | some sides =>
      obtain ⟨left, right⟩ := sides
      have hpos := List.length_pos_iff.2 (splitFrom_ne_nil sep .start right)
      rw [splitTop_of_cutTop? hsep hcut, List.length_cons] at hlength
      rw [splitTop] at hlength
      omega

/-! ## Parts are not parted again -/

/-- The first part, read as it stands in the text, and the others, read by themselves, have no
separator at the top level. -/
theorem exists_splitFrom_uncut (hsep : isPlain sep = true) (n : Nesting) (t : Text) :
    ∃ first more, splitFrom sep n t = first :: more ∧ cutFrom? sep n first = none ∧
      ∀ part ∈ more, cutTop? sep part = none := by
  induction t generalizing n with
  | nil => exact ⟨[], [], rfl, rfl, nofun⟩
  | cons c t ih =>
    obtain ⟨first, more, hparts, hfirst, hmore⟩ := ih (n.step c)
    rw [splitFrom, hparts]
    split
    · rename_i hcut
      obtain ⟨htop, rfl⟩ : n.top = true ∧ c = sep := by simpa using hcut
      rw [cutFrom?_step_sep hsep htop] at hfirst
      exact ⟨[], first :: more, rfl, rfl, List.forall_mem_cons.2 ⟨hfirst, hmore⟩⟩
    · rename_i hcut
      exact ⟨c :: first, more, rfl, cutFrom?_cons_eq_none.2 ⟨by simpa using hcut, hfirst⟩, hmore⟩

theorem cutTop?_of_mem_splitTop (hsep : isPlain sep = true) {part : Text}
    (h : part ∈ splitTop sep t) : cutTop? sep part = none := by
  obtain ⟨first, more, hparts, hfirst, hmore⟩ := exists_splitFrom_uncut hsep .start t
  rw [splitTop, hparts] at h
  rcases List.mem_cons.1 h with rfl | h
  · exact hfirst
  · exact hmore part h

/-- The parts with the separator between them are the text, no part is parted again, and every
separator at the top level parts the text in two. The first one is searched for in vain where there
is one part, and otherwise stands behind the first part. -/
theorem splitTop_exact (hsep : sep ∈ separators) (t : Text) :
    [sep].intercalate (splitTop sep t) = t ∧
    (∀ part ∈ splitTop sep t, splitTop sep part = [part]) ∧
    (∀ before after, t = before ++ sep :: after → (Nesting.start.run before).top = true →
      splitTop sep t = splitTop sep before ++ splitTop sep after) ∧
    (firstAt? sep t = none ↔ (splitTop sep t).length = 1) ∧
    (∀ position, firstAt? sep t = some position →
      ∃ first more, splitTop sep t = first :: more ∧ position = size first ∧
        cutTop? sep t = some (first, [sep].intercalate more)) := by
  have hplain := isPlain_of_mem_separators hsep
  refine ⟨intercalate_splitTop sep t, ?_, ?_, ?_, ?_⟩
  · intro part hpart
    exact splitFrom_of_none (cutTop?_of_mem_splitTop hplain hpart)
  · rintro before after rfl htop
    exact splitTop_append hplain htop after
  · rw [firstAt?_eq, Option.map_eq_none_iff]
    exact cutTop?_eq_none_iff hplain
  · intro position hposition
    rw [firstAt?_eq] at hposition
    obtain ⟨⟨left, right⟩, hcut, rfl⟩ := Option.map_eq_some_iff.1 hposition
    refine ⟨left, splitTop sep right, splitTop_of_cutTop? hplain hcut, rfl, ?_⟩
    rw [intercalate_splitTop, hcut]

/-- Behind the first bar a bracket is closed that is not open, one is left open, and so is a
literal. -/
def strayBrackets : Text := "x | y) | <z, \"w | v".toList

theorem splitTop_exact_strayBrackets :
    '|' ∈ separators ∧ splitTop '|' strayBrackets = ["x ".toList, " y) | <z, \"w | v".toList] ∧
    splitTop '|' " y) | <z, \"w | v".toList = [" y) | <z, \"w | v".toList] ∧
    firstAt? '|' strayBrackets = some 2 := by
  have hsep : '|' ∈ separators := by decide
  have hparts : splitTop '|' strayBrackets = ["x ".toList, " y) | <z, \"w | v".toList] := by
    decide +kernel
  obtain ⟨-, hstable, -, -, -⟩ := splitTop_exact hsep strayBrackets
  refine ⟨hsep, hparts, hstable _ ?_, by decide +kernel⟩
  rw [hparts]
  exact List.mem_cons_of_mem _ List.mem_cons_self

end Text

end InterfaceForms

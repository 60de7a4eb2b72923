import InterfaceForms.Proofs.EarlierLines
import InterfaceForms.Proofs.PrintedComments
import InterfaceForms.Proofs.PrintedTypes
import InterfaceForms.Proofs.Slashes
import Mathlib.Data.List.TakeWhile

/-!
# Comments at the ends of lines

Lines of code may end in comments. A comment that says something, outside brackets and behind code
of its line, becomes part of a segment, where its slashes stay; any other comment leaves no trace.

* `Segment.cut_commented`: without comments that become part of a segment, the segments are those
  of the code.
* `Segment.grown_commented`: each comment that does adds slashes, and segments go on beginning as
  they did.
-/

namespace InterfaceForms

/-- A line of code, and what follows the two slashes at its end. -/
structure CodeLine where
  code : Text
  comment : Option Text
  deriving DecidableEq, Repr

namespace CodeLine

def text (line : CodeLine) : Text :=
  match line.comment with
  | none => line.code
  | some comment => line.code ++ '/' :: '/' :: comment

/-- The lines without their comments. -/
def plain (lines : List CodeLine) : Text := Text.joinWith ['\n'] (lines.map code)

def commented (lines : List CodeLine) : Text := Text.joinWith ['\n'] (lines.map text)

end CodeLine

/-! ## The last line -/

namespace Text

theorem splitLines_ne_nil (t : Text) : splitLines t ≠ [] := by
  fun_induction splitLines t with
  | case1 => exact List.cons_ne_nil _ _
  | case2 t ih => exact List.cons_ne_nil _ _
  | case3 c t hc ih =>
    rw [List.modifyHead_eq_nil_iff.ne]
    exact ih

theorem splitLines_append_newline (t : Text) : splitLines (t ++ ['\n']) = splitLines t ++ [[]] := by
  induction t with
  | nil => rfl
  | cons c t ih =>
    rw [List.cons_append]
    by_cases hc : c = '\n'
    · rw [hc, splitLines, splitLines, ih, List.cons_append]
    · have hcons : ∀ u : Text, splitLines (c :: u) = (splitLines u).modifyHead (c :: ·) := by
        intro u
        rw [splitLines]
        exact hc
      obtain ⟨line, lines, hlines⟩ := List.exists_cons_of_ne_nil (splitLines_ne_nil t)
      rw [hcons, hcons, ih, hlines]
      rfl

/-- A newline after each text instead of between two of them adds one at the end. -/
theorem joinWith_append_newline {ts : List Text} (hne : ts ≠ []) :
    joinWith ['\n'] ts ++ ['\n'] = (ts.map (· ++ ['\n'])).flatten := by
  induction ts with
  | nil => exact absurd rfl hne
  | cons t ts ih =>
    cases ts with
    | nil => simp [joinWith_singleton]
    | cons u ts =>
      rw [joinWith_cons_cons, List.map_cons, List.flatten_cons, ← ih (List.cons_ne_nil u ts)]
      simp

end Text

namespace Cutter

theorem blockCommentText_append_newline (body : Text) :
    blockCommentText (body ++ ['\n']) = blockCommentText body := by
  unfold blockCommentText
  rw [Text.splitLines_append_newline]
  simp [Text.trim, Text.trimStart, Text.trimEnd, Text.dropEndWhile]

theorem done_flush_of_empty {s : Cutter} (h : s.buffer = []) : s.flush.done = s.done := by
  unfold flush
  rw [h]
  rfl

theorem done_flush_newline (s : Cutter) : (s.stepCode '\n').flush.done = s.flush.done := by
  have hquote : isQuoteMark '\n' = false := by decide
  cases hnested : s.nested with
  | false =>
    rw [stepCode_newline hnested]
    exact done_flush_of_empty s.buffer_flush
  | true =>
    have hstep : s.stepCode '\n' =
        { s with buffer := ' ' :: s.buffer, line := s.line + 1, last := '\n' } := by
      simp [stepCode, hquote, hnested]
    rw [hstep]
    refine done_flush_congr rfl rfl rfl ?_
    rw [List.reverse_cons]
    exact Text.trim_append_of_blank (by decide)

theorem mode_stepCode_newline {s : Cutter} (hmode : s.mode = .code) :
    (s.stepCode '\n').mode = .code := by
  have hquote : isQuoteMark '\n' = false := by decide
  cases hnested : s.nested with
  | false =>
    rw [stepCode_newline hnested]
    exact s.mode_flush.trans hmode
  | true => simp [stepCode, hquote, hnested, hmode]

/-- A newline at the end of a text changes nothing. -/
theorem finish_newline (s : Cutter) : (s.step '\n').finish = s.finish := by
  have hcode : ∀ r : Cutter, r.mode = .code →
      (r.stepCode '\n').finish = r.flush.done.reverse := by
    intro r hmode
    rw [finish, mode_stepCode_newline hmode, ← done_flush_newline r]
  cases hmode : s.mode with
  | code =>
    have hstep : s.step '\n' = s.stepCode '\n' := by rw [step, hmode]
    rw [hstep, hcode s hmode, finish, hmode]
  | slash =>
    have hstep : s.step '\n' = (({ s with mode := .code } : Cutter).addCode '/').stepCode '\n' := by
      simp [step, hmode]
    rw [hstep, hcode _ rfl, finish, hmode]
    exact congrArg List.reverse (done_flush_congr (s := s.addCode '/') rfl rfl rfl rfl)
  | literal mark =>
    have hstep : s.step '\n' =
        { ({ s with mode := .code, angles := 0, parens := 0 } : Cutter).flush with
          line := s.line + 1 } := by
      simp [step, hmode]
    generalize hr : ({ s with mode := .code, angles := 0, parens := 0 } : Cutter) = r at hstep
    have hdone : r.flush.done = s.flush.done := by
      rw [← hr]
      exact done_flush_congr rfl rfl rfl rfl
    have hline : ({ r.flush with line := s.line + 1 } : Cutter).mode = .code := by
      rw [← hr]
      exact mode_flush _
    rw [hstep, finish, hline, finish, hmode, ← hdone]
    exact congrArg List.reverse (done_flush_of_empty r.buffer_flush)
  | escape mark =>
    have hstep : s.step '\n' = { s with buffer := '\n' :: s.buffer, mode := .literal mark } := by
      simp [step, hmode]
    rw [hstep, finish, finish, hmode]
    refine congrArg List.reverse (done_flush_congr rfl rfl rfl ?_)
    rw [List.reverse_cons]
    exact Text.trim_append_of_blank (by decide)
  | lineComment read =>
    have hstep : s.step '\n' = (s.endLineComment read).stepCode '\n' := by simp [step, hmode]
    rw [hstep, hcode _ (s.mode_endLineComment read), finish, hmode]
  | blockComment read =>
    have hstep : s.step '\n' =
        { s with mode := .blockComment ('\n' :: read), line := s.line + 1 } := by
      simp [step, hmode]
    rw [hstep, finish, finish, hmode]
    refine congrArg List.reverse (done_flush_congr rfl rfl ?_ rfl)
    simp only [endBlockComment, List.reverse_cons, blockCommentText_append_newline]

end Cutter

theorem Segment.cut_newline (t : Text) : cut (t ++ ['\n']) = cut t := by
  rw [cut, Cutter.run_append]
  exact Cutter.finish_newline _

/-- Texts on lines of their own are cut as when each of them ends in a newline. -/
theorem Segment.cut_joinWith_eq (ts : List Text) :
    cut (Text.joinWith ['\n'] ts) = cut (ts.map (· ++ ['\n'])).flatten := by
  cases ts with
  | nil => rfl
  | cons t ts => rw [← Text.joinWith_append_newline (List.cons_ne_nil t ts), cut_newline]

/-! ## Comments that become part of a segment -/

namespace Text

theorem trimEnd_append {u : Text} (hu : blank u = false) (t : Text) :
    trimEnd (t ++ u) = t ++ trimEnd u := by
  have hne : u.reverse.dropWhile isBlank ≠ [] := fun hnil => by
    have hblank : blank u = true := by simpa [blank] using List.dropWhile_eq_nil_iff.1 hnil
    exact absurd (hu.symm.trans hblank) Bool.false_ne_true
  simp [trimEnd, dropEndWhile, List.dropWhile_append, hne]

theorem trimStart_append {t : Text} (ht : blank t = false) (u : Text) :
    trimStart (t ++ u) = trimStart t ++ u := by
  have hne : t.dropWhile isBlank ≠ [] := fun hnil => by
    have hblank : blank t = true := by simpa [blank] using List.dropWhile_eq_nil_iff.1 hnil
    exact absurd (ht.symm.trans hblank) Bool.false_ne_true
  simp [trimStart, List.dropWhile_append, hne]

theorem trimEnd_prefix_self (t : Text) : trimEnd t <+: t := by
  rw [trimEnd, dropEndWhile, ← List.reverse_suffix, List.reverse_reverse]
  exact List.dropWhile_suffix _

/-- More at the end of a text stays at its end. -/
theorem trim_prefix_append {t u : Text} (ht : blank t = false) (hu : blank u = false) :
    trim t <+: trim (t ++ u) := by
  rw [trim, trim, trimStart_append ht, trimEnd_append hu]
  exact (trimEnd_prefix_self _).trans (List.prefix_append _ _)

end Text

namespace Segment

/-- The segment goes on at its end. -/
structure Extends (x y : Segment) : Prop where
  line : y.line = x.line
  text : x.text <+: y.text

theorem Extends.refl (x : Segment) : Extends x x := ⟨rfl, List.prefix_refl _⟩

theorem Extends.trans {x y z : Segment} (h : Extends x y) (h' : Extends y z) : Extends x z :=
  ⟨h'.line.trans h.line, h.text.trans h'.text⟩

/-- The segments go on at their ends, where they have `k` more slashes or more. -/
structure Grown (k : Nat) (done done' : List Segment) : Prop where
  each : List.Forall₂ Extends done done'
  slashes : Text.slashesOf (done.map text) + k ≤ Text.slashesOf (done'.map text)

theorem Extends.startsWith {x y : Segment} (h : Extends x y) {c : Char}
    (hx : Text.startsWith c x.text = true) : Text.startsWith c y.text = true := by
  obtain ⟨rest, hrest⟩ := h.text
  rw [← hrest]
  simp only [Text.startsWith, decide_eq_true_eq] at hx ⊢
  rw [List.head?_append, hx]
  rfl

theorem extends_trans {done done' done'' : List Segment} (h : List.Forall₂ Extends done done')
    (h' : List.Forall₂ Extends done' done'') : List.Forall₂ Extends done done'' := by
  induction h generalizing done'' with
  | nil => exact h'
  | cons hx _ ih =>
    cases h' with
    | cons hy htail => exact .cons (hx.trans hy) (ih htail)

namespace Grown

variable {k l : Nat} {done done' done'' : List Segment}

theorem refl (done : List Segment) : Grown 0 done done :=
  ⟨List.forall₂_same.2 fun x _ => .refl x, Nat.le_refl _⟩

theorem trans (h : Grown k done done') (h' : Grown l done' done'') : Grown (l + k) done done'' where
  each := extends_trans h.each h'.each
  slashes := by
    have := h.slashes
    have := h'.slashes
    omega

theorem append (h : Grown k done done') (more : List Segment) :
    Grown k (more ++ done) (more ++ done') where
  each := List.rel_append (List.forall₂_same.2 fun x _ => .refl x) h.each
  slashes := by
    have := h.slashes
    simp only [List.map_append, Text.slashesOf_append]
    omega

theorem reverse (h : Grown k done done') : Grown k done.reverse done'.reverse where
  each := List.forall₂_reverse_iff.2 h.each
  slashes := by
    have := h.slashes
    rw [List.map_reverse, List.map_reverse, Text.slashesOf_reverse, Text.slashesOf_reverse]
    exact this

/-- One segment goes on with at least one slash. -/
theorem last {x y : Segment} (h : Extends x y)
    (hslashes : Text.slashes x.text < Text.slashes y.text) (done : List Segment) :
    Grown 1 (x :: done) (y :: done) where
  each := .cons h (List.forall₂_same.2 fun x _ => .refl x)
  slashes := by
    simp only [List.map_cons, Text.slashesOf_cons]
    omega

/-- The segments stand on the same lines. -/
theorem lines (h : Grown k done done') {n : Nat} (hlines : ∀ x ∈ done, x.line ≤ n) :
    ∀ y ∈ done', y.line ≤ n := by
  have heach := h.each
  clear h
  induction heach with
  | nil => exact nofun
  | cons hx _ ih =>
    obtain ⟨hhead, htail⟩ := List.forall_mem_cons.1 hlines
    exact List.forall_mem_cons.2 ⟨hx.line ▸ hhead, ih htail⟩

end Grown

end Segment

namespace Cutter

/-- The comment says something, and stands outside brackets and behind code of its line: then it
becomes part of a segment. -/
def joins (s : Cutter) (comment : Text) : Bool :=
  Text.trim (comment.dropWhile (· = '/')) ≠ [] && !s.nested &&
    (!Text.blank s.buffer ||
      s.done.head?.any fun last => last.line = s.line && last.takesComment)

theorem endLineComment_of_dropped {s : Cutter} {comment : Text} (h : s.joins comment = false) :
    s.endLineComment comment.reverse = { s with mode := .code } := by
  have hnested : ({ s with mode := .code } : Cutter).nested = s.nested := rfl
  simp only [joins, Bool.and_eq_false_iff, Bool.or_eq_false_iff, decide_eq_false_iff_not,
    Bool.not_eq_false', ne_eq, not_not] at h
  unfold endLineComment
  dsimp only
  rw [List.reverse_reverse, hnested]
  split
  · rfl
  · rename_i hwords
    simp only [Bool.or_eq_true, decide_eq_true_eq] at hwords
    obtain ⟨hblank, hlast⟩ := h.resolve_left hwords
    cases hdone : s.done with
    | nil => simp [hblank]
    | cons last done =>
      rw [hdone, List.head?_cons, Option.any_some] at hlast
      simp [hblank, hlast]

/-- What the comment says: its characters after the slashes, trimmed. -/
def words (comment : Text) : Text := Text.trim (comment.dropWhile (· = '/'))

/-- What the comment adds to a segment. -/
theorem endLineComment_of_joins {s : Cutter} {comment : Text} (h : s.joins comment = true) :
    s.nested = false ∧ words comment ≠ [] ∧
      (Text.blank s.buffer = false ∧ s.endLineComment comment.reverse =
          { s with mode := .code, buffer := (trailer (words comment)).reverse ++ s.buffer } ∨
        Text.blank s.buffer = true ∧ ∃ last done, s.done = last :: done ∧
          s.endLineComment comment.reverse =
            { s with
              mode := .code
              done := { last with text := last.text ++ trailer (words comment) } :: done }) := by
  have hnested : ({ s with mode := .code } : Cutter).nested = s.nested := rfl
  simp only [joins, Bool.and_eq_true, Bool.or_eq_true, decide_eq_true_eq, Bool.not_eq_true',
    ne_eq] at h
  obtain ⟨⟨hwords, hopen⟩, hbehind⟩ := h
  refine ⟨hopen, hwords, ?_⟩
  unfold endLineComment
  dsimp only
  rw [List.reverse_reverse, hnested]
  simp only [hwords, hopen, decide_false, Bool.or_false, Bool.false_eq_true, if_false]
  cases hblank : Text.blank s.buffer with
  | false => exact .inl ⟨rfl, rfl⟩
  | true =>
    have hlast := hbehind.resolve_left (by simp [hblank])
    rw [Option.any_eq_true] at hlast
    obtain ⟨last, hhead, hlast⟩ := hlast
    obtain ⟨done, hdone⟩ := List.head?_eq_some_iff.1 hhead
    refine .inr ⟨rfl, last, done, hdone, ?_⟩
    rw [hdone]
    simp only [hlast]
    rfl

theorem slashes_trailer (words : Text) : 0 < Text.slashes (trailer words) := by
  rw [trailer, Text.slashes_append]
  exact Nat.lt_add_right _ (by decide)

theorem endLineComment_of_last (s : Cutter) (last : Char) (read : Text) :
    ({ s with last := last } : Cutter).endLineComment read =
      { s.endLineComment read with last := last } := by
  have hnested : ({ s with mode := .code, last := last } : Cutter).nested =
      ({ s with mode := .code } : Cutter).nested := rfl
  unfold endLineComment
  dsimp only
  rw [hnested]
  split
  · rfl
  split
  · rfl
  cases s.done with
  | nil => rfl
  | cons segment done =>
    dsimp only
    split <;> rfl

/-- The end of a line does not depend on the character before it. -/
theorem stepCode_newline_of_last (s : Cutter) (last : Char) :
    ({ s with last := last } : Cutter).stepCode '\n' = s.stepCode '\n' := by
  have hquote : isQuoteMark '\n' = false := by decide
  cases hnested : s.nested with
  | false =>
    rw [stepCode_newline hnested, stepCode_newline (by exact hnested)]
    cases hblank : Text.blank s.buffer with
    | true => rw [flush_of_blank hblank, flush_of_blank (by exact hblank)]
    | false => rw [flush_of_held hblank, flush_of_held (by exact hblank)]
  | true =>
    have hnested' : ({ s with last := last } : Cutter).nested = true := hnested
    simp [stepCode, hquote, hnested, hnested']

/-- A comment at the end of a line of code, and the end of the line. -/
theorem step_comment {s : Cutter} (hmode : s.mode = .code) {comment : Text}
    (hline : '\n' ∉ comment) :
    (s.run ('/' :: '/' :: comment)).step '\n' =
      (s.endLineComment comment.reverse).stepCode '\n' := by
  rw [run_slashes hmode hline, ← stepCode_newline_of_last _ '/', ← endLineComment_of_last]
  rfl

/-- A comment that becomes part of no segment leaves no trace. -/
theorem step_comment_of_dropped {s : Cutter} (hmode : s.mode = .code) {comment : Text}
    (hline : '\n' ∉ comment) (h : s.joins comment = false) :
    (s.run ('/' :: '/' :: comment)).step '\n' = s.step '\n' := by
  have hcode : ({ s with mode := .code } : Cutter) = s := by rw [← hmode]
  rw [step_comment hmode hline, endLineComment_of_dropped h, hcode, step, hmode]

/-- A comment that becomes part of a segment adds slashes there and nothing else. -/
theorem step_comment_of_joins {s : Cutter} (hmode : s.mode = .code) {comment : Text}
    (hline : '\n' ∉ comment) (h : s.joins comment = true) :
    ∃ done, (s.run ('/' :: '/' :: comment)).step '\n' = { s.step '\n' with done := done } ∧
      Segment.Grown 1 (s.step '\n').done done := by
  obtain ⟨hnested, -, ⟨hheld, heq⟩ | ⟨hblank, last, done, hdone, heq⟩⟩ :=
    endLineComment_of_joins h
  all_goals
    have hmore := slashes_trailer (words comment)
    generalize trailer (words comment) = more at heq hmore
  · have hheld' : Text.blank (more.reverse ++ s.buffer) = false := blank_push hheld _
    have hmore' : Text.blank more = false := by
      rw [Bool.eq_false_iff]
      exact fun hblank => absurd (Text.slashes_of_blank hblank) (Nat.pos_iff_ne_zero.1 hmore)
    have hextends : Segment.Extends ⟨Text.trim s.buffer.reverse, s.bufferLine, s.doc⟩
        ⟨Text.trim (more.reverse ++ s.buffer).reverse, s.bufferLine, s.doc⟩ := by
      refine ⟨rfl, ?_⟩
      dsimp only
      rw [List.reverse_append, List.reverse_reverse]
      exact Text.trim_prefix_append (by simpa [Text.blank] using hheld) hmore'
    rw [step_comment hmode hline, heq, stepCode_newline (by exact hnested),
      step_newline hmode hnested, flush_of_held hheld, flush_of_held (by exact hheld'), hmode]
    refine ⟨_, rfl, .last hextends ?_ s.done⟩
    simp only [Text.slashes_trim, Text.slashes_reverse, Text.slashes_append]
    omega
  · have hextends : Segment.Extends last { last with text := last.text ++ more } :=
      ⟨rfl, List.prefix_append _ _⟩
    rw [step_comment hmode hline, heq, stepCode_newline (by exact hnested),
      step_newline hmode hnested, flush_of_blank hblank, flush_of_blank (by exact hblank), hmode,
      hdone]
    refine ⟨_, rfl, .last hextends ?_ done⟩
    simp only [Text.slashes_append]
    omega

/-- Where a line has a comment, its code ends outside literals and other comments. -/
def Placed (s : Cutter) : List CodeLine → Prop
  | [] => True
  | line :: lines =>
    (∀ comment ∈ line.comment, (s.run line.code).mode = .code ∧ '\n' ∉ comment) ∧
      Placed ((s.run line.code).step '\n') lines

instance decidablePlaced : (s : Cutter) → (lines : List CodeLine) → Decidable (s.Placed lines)
  | _, [] => .isTrue trivial
  | s, line :: lines =>
    have := decidablePlaced ((s.run line.code).step '\n') lines
    inferInstanceAs (Decidable (_ ∧ _))

/-- How many comments become part of a segment. -/
def joined (s : Cutter) : List CodeLine → Nat
  | [] => 0
  | line :: lines =>
    (if line.comment.any (s.run line.code).joins then 1 else 0) +
      joined ((s.run line.code).step '\n') lines

theorem run_append_newline (s : Cutter) (t : Text) : s.run (t ++ ['\n']) = (s.run t).step '\n' :=
  run_append s t ['\n']

/-! ## Comments at the ends of earlier lines -/

/-- The pass `r` has read what `s` has, and before it lines with comments that give their segments
`k` slashes or more. -/
def Spliced (k : Nat) (s r : Cutter) : Prop :=
  ∃ n old old', Counted n s ∧ Framed old old' s r ∧ (∀ segment ∈ old, segment.line ≤ n) ∧
    Segment.Grown k old old'

/-- No segment is of the line that begins. -/
theorem Counted.nextLine {n : Nat} {s : Cutter} (h : Counted n s) (hmode : s.mode = .code)
    (hnested : s.nested = false) :
    Counted s.line (s.step '\n') ∧ ∀ segment ∈ (s.step '\n').done, segment.line ≤ s.line := by
  have hbuffer : s.flush.bufferLine ≤ s.line := s.line_flush ▸ h.flush.buffer
  have hdone : ∀ segment ∈ s.flush.done, segment.line ≤ s.line := s.line_flush ▸ h.flush.done
  rw [step_newline hmode hnested]
  refine ⟨⟨Nat.lt_succ_self _, Nat.le_succ_of_le hbuffer, ?_⟩, hdone⟩
  exact fun segment hsegment => Nat.le_succ_of_le (hdone segment hsegment)

namespace Spliced

variable {k : Nat} {s r : Cutter}

theorem start : Spliced 0 Cutter.start Cutter.start :=
  ⟨0, [], [], counted_start, ⟨[], rfl, rfl⟩, nofun, .refl []⟩

theorem run (h : Spliced k s r) (t : Text) : Spliced k (s.run t) (r.run t) := by
  obtain ⟨n, old, old', hcounted, hframed, hold, hgrown⟩ := h
  exact ⟨n, old, old', hcounted.run t,
    hframed.run hcounted (.of_lines hold) (.of_lines (hgrown.lines hold)) t, hold, hgrown⟩

/-- A comment at the end of the line. -/
theorem comment (h : Spliced k s r) (hmode : s.mode = .code) {comment : Text}
    (hline : '\n' ∉ comment) :
    Spliced (k + if s.joins comment then 1 else 0) (s.step '\n')
      ((r.run ('/' :: '/' :: comment)).step '\n') := by
  cases hjoins : s.joins comment with
  | false =>
    have hboth := h.run ('/' :: '/' :: comment ++ ['\n'])
    rw [run_append_newline, run_append_newline, step_comment_of_dropped hmode hline hjoins] at hboth
    exact hboth
  | true =>
    obtain ⟨hnested, -⟩ := endLineComment_of_joins hjoins
    obtain ⟨done, hstep, hmore⟩ := step_comment_of_joins hmode hline hjoins
    obtain ⟨n, old, old', hcounted, hframed, hold, hgrown⟩ := h
    obtain ⟨hnext, hearlier⟩ := hcounted.nextLine hmode hnested
    have hboth := hframed.run hcounted (.of_lines hold) (.of_lines (hgrown.lines hold))
      ('/' :: '/' :: comment ++ ['\n'])
    rw [run_append_newline, run_append_newline, hstep] at hboth
    obtain ⟨since, hdone, hr⟩ := hboth
    change done = since ++ old at hdone
    rw [hdone] at hmore
    exact ⟨s.line, _, since ++ old', hnext, ⟨[], rfl, hr⟩, hearlier,
      hmore.trans (hgrown.append since)⟩

theorem line (h : Spliced k s r) {line : CodeLine}
    (hplaced : ∀ comment ∈ line.comment, (s.run line.code).mode = .code ∧ '\n' ∉ comment) :
    Spliced (k + if line.comment.any (s.run line.code).joins then 1 else 0)
      (s.run (line.code ++ ['\n'])) (r.run (line.text ++ ['\n'])) := by
  obtain ⟨code, _ | comment⟩ := line
  · exact h.run (code ++ ['\n'])
  · obtain ⟨hmode, hline⟩ := hplaced comment rfl
    rw [run_append_newline, run_append_newline, CodeLine.text, run_append]
    exact (h.run code).comment hmode hline

theorem lines (h : Spliced k s r) {lines : List CodeLine} (hplaced : s.Placed lines) :
    Spliced (k + s.joined lines) (s.run ((lines.map CodeLine.code).map (· ++ ['\n'])).flatten)
      (r.run ((lines.map CodeLine.text).map (· ++ ['\n'])).flatten) := by
  induction lines generalizing k s r with
  | nil => exact h
  | cons line lines ih =>
    obtain ⟨hline, hlines⟩ := hplaced
    rw [joined, ← Nat.add_assoc]
    simp only [List.map_cons, List.flatten_cons]
    rw [run_append s (line.code ++ ['\n']), run_append r (line.text ++ ['\n'])]
    rw [← run_append_newline] at hlines ⊢
    exact ih (h.line hline) hlines

theorem finish (h : Spliced k s r) : Segment.Grown k s.finish r.finish := by
  obtain ⟨n, old, old', hcounted, hframed, hold, hgrown⟩ := h
  obtain ⟨segments, hs, hr⟩ :=
    hframed.finish (.of_lines hold) (.of_lines (hgrown.lines hold)) hcounted.after
  have hreverse := (hgrown.append segments.reverse).reverse
  rw [List.reverse_append, List.reverse_append, List.reverse_reverse] at hreverse
  rw [hs, hr]
  exact hreverse

end Spliced

/-- Without comments that become part of a segment the pass reads the code. -/
theorem run_of_joined_eq_zero {s : Cutter} {lines : List CodeLine} (hplaced : s.Placed lines)
    (h : s.joined lines = 0) :
    s.run ((lines.map CodeLine.text).map (· ++ ['\n'])).flatten =
      s.run ((lines.map CodeLine.code).map (· ++ ['\n'])).flatten := by
  induction lines generalizing s with
  | nil => rfl
  | cons line lines ih =>
    obtain ⟨hline, hlines⟩ := hplaced
    obtain ⟨hnone, hrest⟩ := Nat.add_eq_zero_iff.1 h
    have hsame : s.run (line.text ++ ['\n']) = (s.run line.code).step '\n' := by
      obtain ⟨code, _ | comment⟩ := line
      · exact s.run_append_newline code
      · obtain ⟨hmode, hcomment⟩ := hline comment rfl
        have hdropped : (s.run code).joins comment = false := by simpa using hnone
        rw [run_append_newline, CodeLine.text, run_append,
          step_comment_of_dropped hmode hcomment hdropped]
    simp only [List.map_cons, List.flatten_cons]
    rw [run_append s (line.text ++ ['\n']), run_append s (line.code ++ ['\n']), hsame,
      run_append_newline]
    exact ih hlines hrest

end Cutter

namespace Segment

variable {lines : List CodeLine}

/-- Comments that become part of a segment are read in the segments. -/
theorem grown_commented (h : Cutter.start.Placed lines) :
    Grown (Cutter.start.joined lines) (cut (CodeLine.plain lines))
      (cut (CodeLine.commented lines)) := by
  have hlines := (Cutter.Spliced.start.lines h).finish
  rw [Nat.zero_add] at hlines
  rw [CodeLine.plain, CodeLine.commented, cut_joinWith_eq, cut_joinWith_eq]
  exact hlines

/-- The other comments are not. -/
theorem cut_commented (h : Cutter.start.Placed lines) (hnone : Cutter.start.joined lines = 0) :
    cut (CodeLine.commented lines) = cut (CodeLine.plain lines) := by
  rw [CodeLine.plain, CodeLine.commented, cut_joinWith_eq, cut_joinWith_eq, cut, cut,
    Cutter.run_of_joined_eq_zero h hnone]

end Segment

end InterfaceForms

import InterfaceForms.Proofs.CommentedFields
import InterfaceForms.Proofs.HeaderLines
import InterfaceForms.Proofs.LineBreaks

/-!
# Segments over several lines

Where brackets are open a newline is read as a blank and a comment before it is dropped, so code
over several lines becomes the same segment as on one line. But the segment is of the line on which
it begins. So a comment at the end of the last line joins it while it is being read, and not when a
semicolon has ended it before.

* `Cutter.unnumbered_broken`: the pass over several lines holds what it holds after one.
* `Cutter.broken_kept`: the segment of several lines is not of the last of them.
* `Segment.exists_cut_commented`: the segment of a member with a comment behind it.
-/

namespace InterfaceForms

/-! ## Lines that leave brackets open -/

namespace CodeLine

/-- The code of the lines and `last` behind it on one line, with a blank for the end of each. -/
def flat (lines : List CodeLine) (last : Text) : Text :=
  lines.flatMap (fun line => line.code ++ [' ']) ++ last

/-- The lines with their comments, and `last` on a line of its own. -/
def broken (lines : List CodeLine) (last : Text) : Text :=
  lines.flatMap (fun line => line.text ++ ['\n']) ++ last

end CodeLine

namespace Cutter

variable {s r : Cutter} {line : CodeLine} {lines : List CodeLine} {last : Text}

theorem run_flat_cons (s : Cutter) : s.run (CodeLine.flat (line :: lines) last) =
    ((s.run line.code).step ' ').run (CodeLine.flat lines last) := by
  rw [CodeLine.flat, List.flatMap_cons, List.append_assoc, List.append_assoc, run_append]
  rfl

theorem run_broken_cons (s : Cutter) : s.run (CodeLine.broken (line :: lines) last) =
    ((s.run line.text).step '\n').run (CodeLine.broken lines last) := by
  rw [CodeLine.broken, List.flatMap_cons, List.append_assoc, run_append, run_append_newline]
  rfl

/-- Each of the lines ends no segment and leaves a bracket open. -/
def Breaks (s : Cutter) : List CodeLine → Prop
  | [] => True
  | line :: lines =>
    ((s.run line.code).mode = .code ∧ (s.run line.code).nested = true ∧
        (s.run line.code).done = s.done) ∧
      '\n' ∉ line.code ∧ (∀ comment ∈ line.comment, '\n' ∉ comment) ∧
      Breaks ((s.run line.code).step ' ') lines

instance decidableBreaks : (s : Cutter) → (lines : List CodeLine) → Decidable (s.Breaks lines)
  | _, [] => .isTrue trivial
  | s, line :: lines =>
    have := decidableBreaks ((s.run line.code).step ' ') lines
    inferInstanceAs (Decidable (_ ∧ _))

theorem step_newline_of_nested (hmode : s.mode = .code) (hnested : s.nested = true) :
    s.step '\n' = { s with buffer := ' ' :: s.buffer, line := s.line + 1, last := '\n' } := by
  simp [step, hmode, stepCode, isQuoteMark, hnested]

/-- Inside brackets a newline is read as a blank. -/
theorem unnumbered_step_blank (hmode : s.mode = .code) (hnested : s.nested = true) :
    (s.step ' ').unnumbered = (s.step '\n').unnumbered := by
  have hinert : beforeAngle ' ' = beforeAngle '\n' := by decide +kernel
  rw [step_newline_of_nested hmode hnested, step_of_isBlank hmode (by decide) (by decide)]
  simp [unnumbered, add, hinert]

/-- Inside brackets a comment is dropped. -/
theorem run_text_of_nested (hmode : (s.run line.code).mode = .code)
    (hnested : (s.run line.code).nested = true)
    (hcomment : ∀ comment ∈ line.comment, '\n' ∉ comment) :
    (s.run line.text).step '\n' = (s.run line.code).step '\n' := by
  obtain ⟨code, _ | comment⟩ := line
  · rfl
  · rw [CodeLine.text, run_append]
    exact step_comment_of_dropped hmode (hcomment comment rfl) (by simp [joins, hnested])

theorem relaid_refl (s : Cutter) (t : Text) : s.Relaid t t := by
  induction t generalizing s with
  | nil => trivial
  | cons c t ih => exact ⟨.inl rfl, ih (s.step c)⟩

/-- A comment goes on to the end of its line. -/
theorem meetsNoComment_of_code {t : Text} (hmode : (s.run t).mode = .code) (hline : '\n' ∉ t) :
    s.MeetsNoComment t := by
  rintro p ⟨u, rfl⟩
  rw [Bool.eq_false_iff]
  intro hcomment
  unfold Mode.inLineComment at hcomment
  split at hcomment
  · rename_i read hread
    have hrest : '\n' ∉ u := fun hmem => hline (List.mem_append_right p hmem)
    rw [run_append, run_lineComment hread hrest] at hmode
    cases hmode
  · cases hcomment

/-- Code over several lines is held as it is on one, and the segments before it say the same. -/
theorem unnumbered_broken (h : s.unnumbered = r.unnumbered) (hbreaks : s.Breaks lines)
    (hlast : '\n' ∉ last) (hmode : (s.run (CodeLine.flat lines last)).mode = .code) :
    (s.run (CodeLine.flat lines last)).unnumbered =
      (r.run (CodeLine.broken lines last)).unnumbered := by
  induction lines generalizing s r with
  | nil => exact unnumbered_run h (relaid_refl s last) (meetsNoComment_of_code hmode hlast)
  | cons line lines ih =>
    obtain ⟨⟨hcode, hnested, -⟩, hline, hcomment, hrest⟩ := hbreaks
    have hrun : (s.run line.code).unnumbered = (r.run line.code).unnumbered :=
      unnumbered_run h (relaid_refl s line.code) (meetsNoComment_of_code hcode hline)
    have hcode' : (r.run line.code).mode = .code := (congrArg Cutter.mode hrun).symm.trans hcode
    have hnested' : (r.run line.code).nested = true :=
      (congrArg Cutter.nested hrun).symm.trans hnested
    rw [run_flat_cons] at hmode ⊢
    rw [run_broken_cons, run_text_of_nested hcode' hnested' hcomment]
    refine ih ?_ hrest hmode
    rw [unnumbered_step_blank hcode hnested, unnumbered_step (by rw [hcode]; rfl), hrun,
      ← unnumbered_step (by rw [hcode']; rfl)]

theorem Clean.run (h : Clean s) (t : Text) : Clean (s.run t) := by
  induction t generalizing s with
  | nil => exact h
  | cons c t ih => exact ih (h.step c)

/-- An open bracket is held. -/
theorem Clean.held_of_nested (h : Clean s) (hnested : s.nested = true) :
    Text.blank s.buffer = false := by
  cases h with
  | free _ hopen _ =>
    rw [hopen] at hnested
    cases hnested
  | held hbuffer _ => exact hbuffer

/-- The segment of several lines is of the first of them, and not of the last. -/
theorem broken_kept (hclean : Clean s) {n : Nat} (hcounted : Counted n s)
    (hbreaks : s.Breaks (line :: lines))
    (hlength : (s.run (CodeLine.broken (line :: lines) last)).done.length = s.done.length) :
    (s.run (CodeLine.broken (line :: lines) last)).done = s.done ∧
      (s.run (CodeLine.broken (line :: lines) last)).bufferLine <
        (s.run (CodeLine.broken (line :: lines) last)).line := by
  obtain ⟨⟨hcode, hnested, hdone⟩, -, hcomment, -⟩ := hbreaks
  have hheld := (hclean.run line.code).held_of_nested hnested
  have hfirst := (hcounted.run line.code).step '\n'
  have hbefore := (hcounted.run line.code).buffer
  rw [run_broken_cons, run_text_of_nested hcode hnested hcomment] at hlength ⊢
  rw [step_newline_of_nested hcode hnested] at hfirst hlength ⊢
  generalize hr : ({ s.run line.code with
    buffer := ' ' :: (s.run line.code).buffer
    line := (s.run line.code).line + 1
    last := '\n' } : Cutter) = r at hfirst hlength ⊢
  have hread : r.done = s.done := by rw [← hr, hdone]
  have hline : r.bufferLine < r.line := by
    rw [← hr]
    exact Nat.lt_succ_of_le hbefore
  have hheld' : Text.blank r.buffer = false := by
    rw [← hr]
    exact blank_push hheld [' ']
  have hlater : Counted r.bufferLine r := ⟨hline, hfirst.buffer, hfirst.done⟩
  rcases (Keeps.refl hheld').run (CodeLine.broken lines last) with hmore | ⟨hsame, hbegun, -⟩
  · rw [hread, hlength] at hmore
    exact absurd hmore (Nat.lt_irrefl _)
  · rw [hsame, hread, hbegun]
    exact ⟨rfl, (hlater.run _).after⟩

/-! ## The comment behind the last line -/

/-- A comment at the end of a line, behind a semicolon or without one, that says something and does
not end like the header of a block. -/
structure TrailingComment where
  close : Bool
  blanks : Text
  comment : Text
  blank : Text.blank blanks = true
  sameLine : '\n' ∉ blanks
  oneLine : '\n' ∉ comment
  spoken : words comment ≠ []
  closed : Text.endsWith '\x7b' (words comment) = false

namespace TrailingComment

def text (e : TrailingComment) : Text :=
  terminator e.close ++ e.blanks ++ '/' :: '/' :: e.comment

def words (e : TrailingComment) : Text := Cutter.words e.comment

end TrailingComment

/-- The segment being read, if it ended here. -/
def pending (s : Cutter) : Segment := ⟨Text.trim s.buffer.reverse, s.bufferLine, s.doc⟩

theorem done_flush_of_held (hheld : Text.blank s.buffer = false) :
    s.flush.done = s.pending :: s.done := by
  rw [flush_of_held hheld]
  rfl

/-- Blanks stand behind what is held. -/
theorem buffer_run_blank {b : Text} (hmode : s.mode = .code) (hb : Text.blank b = true)
    (hline : '\n' ∉ b) : (s.run b).buffer = b.reverse ++ s.buffer := by
  induction b generalizing s with
  | nil => rfl
  | cons c b ih =>
    simp only [Text.blank, List.all_cons, Bool.and_eq_true] at hb
    rw [List.mem_cons, not_or] at hline
    obtain ⟨hc, hline⟩ := hline
    rw [run_cons, step_of_isBlank hmode hb.1 (Ne.symm hc), ih (s := s.add c) hmode hb.2 hline]
    simp [add]

theorem Settled.terminator {read : List (Text × Option Text)} (h : s.Settled read)
    (close : Bool) : (s.run (terminator close)).Settled read := by
  cases close with
  | false => exact h
  | true =>
    have hrun : s.run (InterfaceForms.terminator true) = { s.flush with last := ';' } :=
      step_semicolon h.mode h.nested
    rw [hrun]
    exact (h.flush.move _ _).settled

/-- Code is held that makes the line of the member. -/
structure HoldsMember (s : Cutter) (m : Member) : Prop where
  mode : s.mode = .code
  nested : s.nested = false
  member : s.pending.IsMember m

instance (s : Cutter) (m : Member) : Decidable (s.HoldsMember m) :=
  decidable_of_iff (s.mode = .code ∧ s.nested = false ∧ s.pending.IsMember m)
    ⟨fun ⟨mode, nested, member⟩ => ⟨mode, nested, member⟩,
      fun h => ⟨h.mode, h.nested, h.member⟩⟩

namespace HoldsMember

variable {m : Member} (h : s.HoldsMember m)
include h

theorem held : Text.blank s.buffer = false := by
  rw [Bool.eq_false_iff]
  intro hblank
  have htext : s.pending.text = [] := Text.trim_eq_nil.2 (by simpa [Text.blank] using hblank)
  have hstarts := h.member.starts
  rw [htext] at hstarts
  cases hstarts

theorem settled : s.Settled (s.pending.content :: s.done.map Segment.content) := by
  refine ⟨h.mode, h.nested, ?_⟩
  have hnested := h.nested
  simp only [Cutter.nested, decide_eq_false_iff_not, Nat.not_lt, Nat.le_zero,
    Nat.add_eq_zero_iff] at hnested
  rw [flush_of_held h.held]
  exact ⟨h.mode, rfl, hnested.1, hnested.2, rfl, rfl⟩

/-- The end of the line makes the segment of the member, with a semicolon or without. -/
theorem done_terminator (close : Bool) :
    (s.run (terminator close)).flush.done = s.pending :: s.done ∧
      (s.run (terminator close)).line = s.line := by
  cases close with
  | false => exact ⟨done_flush_of_held h.held, rfl⟩
  | true =>
    have hrun : s.run (terminator true) = { s.flush with last := ';' } :=
      step_semicolon h.mode h.nested
    rw [hrun, ← done_flush_of_held h.held]
    exact ⟨done_flush_of_empty s.buffer_flush, s.line_flush⟩

/-- Behind what ends the member the comment is still to be read. -/
theorem settled_ending (e : TrailingComment) :
    (s.run (terminator e.close ++ e.blanks)).Settled
        (s.pending.content :: s.done.map Segment.content) ∧
      (s.run (terminator e.close ++ e.blanks)).flush.done = s.pending :: s.done ∧
      (s.run (terminator e.close ++ e.blanks)).line = s.line ∧
      Text.blank (s.run (terminator e.close ++ e.blanks)).buffer = e.close := by
  have hend := h.settled.terminator e.close
  obtain ⟨hdone, hline⟩ := h.done_terminator e.close
  rw [run_append]
  refine ⟨hend.blanks e.blank, ?_, ?_, ?_⟩
  · rw [(run_blank hend.mode hend.nested e.blank).2.2, hdone]
  · rw [line_run_blank hend.mode e.blank e.sameLine, hline]
  · rw [buffer_run_blank hend.mode e.blank e.sameLine]
    cases e.close with
    | false => exact blank_push h.held _
    | true =>
      have hrun : s.run (terminator true) = { s.flush with last := ';' } :=
        step_semicolon h.mode h.nested
      have hblank := e.blank
      rw [hrun, Text.blank_append]
      simp only [Text.blank, List.all_reverse] at hblank ⊢
      rw [hblank, buffer_flush]
      rfl

/-- The comment describes the member while its code is held. Behind a semicolon it does so only if
the member began on the same line. -/
theorem exists_comment (e : TrailingComment) :
    ∃ segment : Segment,
      segment.GivesMember { m with
        description :=
          if e.close = true ∧ s.bufferLine ≠ s.line then s.doc else some e.words } ∧
      (s.run e.text).step '\n' =
        { (s.run (terminator e.close ++ e.blanks)).step '\n' with done := segment :: s.done } := by
  obtain ⟨hend, hdone, hline, hblank⟩ := h.settled_ending e
  rw [TrailingComment.text, run_append]
  generalize s.run (terminator e.close ++ e.blanks) = r at hend hdone hline hblank ⊢
  by_cases hdropped : e.close = true ∧ s.bufferLine ≠ s.line
  · obtain ⟨hclose, hother⟩ := hdropped
    have hread : r.done = s.pending :: s.done := by
      rw [← hdone, flush_of_blank (hblank.trans hclose)]
    have hjoins : r.joins e.comment = false := by
      simp [joins, hblank, hclose, hread, hline, pending, hother]
    have hgives : s.pending.GivesMember { m with description := s.doc } := h.member.gives
    refine ⟨s.pending, ?_, ?_⟩
    · simpa [hclose, hother] using hgives
    · rw [step_comment_of_dropped hend.mode e.oneLine hjoins, step_newline hend.mode hend.nested,
        ← hdone]
  · have hsame : Text.blank r.buffer = true → s.pending.line = r.line := by
      intro hempty
      rw [hline]
      change s.bufferLine = s.line
      simpa [← hblank, hempty] using hdropped
    obtain ⟨segment, hcommented, -, hstep⟩ := exists_commented hend.mode hend.nested hdone hsame
      h.member.takesComment [] e.oneLine
    refine ⟨segment, ?_, hstep⟩
    have hwords : CodeLine.words? ⟨[], some e.comment⟩ = some e.words := by
      rw [CodeLine.words?_some, if_neg e.spoken]
      rfl
    have hgives := h.member.commented hcommented (by
      rw [hwords]
      rintro _ ⟨⟩
      exact e.closed)
    rw [CodeLine.described, hwords] at hgives
    rwa [if_neg hdropped]

end HoldsMember

end Cutter

/-! ## The segments -/

namespace Segment

variable {before code : Text} {m : Member}

theorem cut_of_begins {done : List Segment} (h : Cutter.Begins before done) :
    cut before = done.reverse := by
  rw [cut, Cutter.finish, h.mode, Cutter.flush_of_blank h.buffer, ← h.done]

/-- The end of a line leaves nothing behind but segments. -/
theorem closed_of_step {t : Text} {r : Cutter} {read : List (Text × Option Text)}
    {done : List Segment} (hr : r.Settled read)
    (hmode : (Cutter.start.run t).mode.unfinished = false)
    (hangles : (Cutter.start.run t).angles = r.angles)
    (hparens : (Cutter.start.run t).parens = r.parens)
    (hstep : (Cutter.start.run t).step '\n' = { r.step '\n' with done := done }) :
    t.Closed ∧ cut t = done.reverse := by
  have hready := hr.newline
  have hempty : ({ r.step '\n' with done := done } : Cutter).buffer = [] := by
    rw [Cutter.step_newline hr.mode hr.nested]
    exact r.buffer_flush
  refine ⟨⟨hmode, ?_, ?_, ?_⟩, ?_⟩
  · rw [hangles, ← r.angles_flush, hr.flush.angles]
  · rw [hparens, ← r.parens_flush, hr.flush.parens]
  · rw [hstep]
    exact hready.doc
  · rw [cut, ← Cutter.finish_newline, hstep, Cutter.finish]
    dsimp only
    rw [hready.mode]
    exact congrArg List.reverse (Cutter.done_flush_of_empty hempty)

section Members

variable (hbegins : Cutter.Begins before (Cutter.start.run (before ++ code)).done)
  (h : (Cutter.start.run (before ++ code)).HoldsMember m)
include hbegins h

/-- The segment of a member on a line of its own. -/
theorem cut_member (close : Bool) : (before ++ code ++ terminator close).Closed ∧
    cut (before ++ code ++ terminator close) =
      cut before ++ [(Cutter.start.run (before ++ code)).pending] := by
  have hend := h.settled.terminator close
  have hdone := (h.done_terminator close).1
  rw [← Cutter.run_append] at hend hdone
  have hstep : (Cutter.start.run (before ++ code ++ terminator close)).step '\n' =
      { (Cutter.start.run (before ++ code ++ terminator close)).step '\n' with
        done := (Cutter.start.run (before ++ code)).pending ::
          (Cutter.start.run (before ++ code)).done } := by
    rw [Cutter.step_newline hend.mode hend.nested, ← hdone]
  obtain ⟨hclosed, hcut⟩ := closed_of_step hend (by rw [hend.mode]; rfl) rfl rfl hstep
  refine ⟨hclosed, ?_⟩
  rw [hcut, cut_of_begins hbegins, List.reverse_cons]

/-- The segment of a member with a comment behind it. -/
theorem exists_cut_commented (e : Cutter.TrailingComment) :
    ∃ segment : Segment,
      segment.GivesMember { m with
        description :=
          if e.close = true ∧ (Cutter.start.run (before ++ code)).bufferLine ≠
              (Cutter.start.run (before ++ code)).line then
            (Cutter.start.run (before ++ code)).doc
          else some e.words } ∧
      (before ++ code ++ e.text).Closed ∧
      cut (before ++ code ++ e.text) = cut before ++ [segment] := by
  obtain ⟨hend, -⟩ := h.settled_ending e
  obtain ⟨segment, hgives, hstep⟩ := h.exists_comment e
  have hrun : Cutter.start.run (before ++ code ++ e.text) =
      { (Cutter.start.run (before ++ code)).run (terminator e.close ++ e.blanks) with
        mode := .lineComment e.comment.reverse
        last := '/' } := by
    rw [Cutter.run_append, Cutter.TrailingComment.text, Cutter.run_append,
      Cutter.run_slashes hend.mode e.oneLine]
  rw [← Cutter.run_append] at hstep
  obtain ⟨hclosed, hcut⟩ := closed_of_step hend (by rw [hrun]; rfl) (by rw [hrun]) (by rw [hrun])
    hstep
  refine ⟨segment, hgives, hclosed, ?_⟩
  rw [hcut, cut_of_begins hbegins, List.reverse_cons]

end Members

end Segment

end InterfaceForms

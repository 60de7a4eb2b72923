import InterfaceForms.Proofs.EarlierLines
import InterfaceForms.Proofs.PrintedLines

/-!
# Lines of joined texts

Where a text ends outside literals, comments and brackets, the pass that cuts it starts afresh on
the next line. So the segments of two texts on lines of their own are those of the first and then
those of the second, but for their numbers of lines.

* `Cutter.Follows.step`: the pass over a later text reads what it would read of that text alone.
* `Segment.cut_joinWith`, `Segment.cut_lines`: the segments of texts that are joined.
-/

namespace InterfaceForms

/-- The same is said in the segments, `k` lines later. An opening brace that is held alone has no
line of its own. -/
structure Segment.Moved (k : Nat) (x y : Segment) : Prop where
  content : y.content = x.content
  line : x.text ≠ ['\x7b'] → y.line = x.line + k

theorem Segment.ne_brace_of_takesComment {s : Segment} (h : s.takesComment = true) :
    s.text ≠ ['\x7b'] := by
  intro hbrace
  simp only [takesComment, Bool.and_eq_true, Bool.not_eq_true', hbrace] at h
  exact absurd h.2 (by decide)

theorem Segment.content_of_moved {k : Nat} {done done' : List Segment}
    (h : List.Forall₂ (Moved k) done done') : done'.map content = done.map content := by
  induction h with
  | nil => rfl
  | cons hmoved _ ih => rw [List.map_cons, List.map_cons, hmoved.content, ih]

namespace Cutter

/-- The character neither lets an angle bracket after it open nor keeps it from closing. -/
def inert (c : Char) : Bool := !(Text.isAlphanumeric c || c = '_' || c = '$') && c ≠ '='

/-- The pass `r` has read `k` lines that gave no segment, and then what `s` has read. The line of a
segment counts only from its first character that is not blank. -/
structure Follows (k : Nat) (s r : Cutter) : Prop where
  mode : r.mode = s.mode
  buffer : r.buffer = s.buffer
  doc : r.doc = s.doc
  angles : r.angles = s.angles
  parens : r.parens = s.parens
  line : r.line = s.line + k
  bufferLine : Text.blank s.buffer = false → r.bufferLine = s.bufferLine + k
  last : r.last = s.last ∨ inert s.last = true ∧ inert r.last = true
  done : List.Forall₂ (Segment.Moved k) s.done r.done

namespace Follows

variable {k : Nat} {s r : Cutter}

theorem nested (h : Follows k s r) : r.nested = s.nested := by
  rw [Cutter.nested, Cutter.nested, h.angles, h.parens]

theorem anglesAfter (h : Follows k s r) (c : Char) : r.anglesAfter c = s.anglesAfter c := by
  unfold Cutter.anglesAfter
  rcases h.last with hlast | ⟨hs, hr⟩
  · rw [hlast, h.angles]
  · simp only [inert, Bool.and_eq_true, Bool.not_eq_true', decide_eq_true_eq] at hs hr
    simp only [hs.1, hr.1, decide_eq_true hs.2, decide_eq_true hr.2, h.angles]

theorem parensAfter (h : Follows k s r) (c : Char) : r.parensAfter c = s.parensAfter c := by
  rw [Cutter.parensAfter, Cutter.parensAfter, h.parens]

/-- The end of a segment. The line of an opening brace alone does not count. -/
theorem flush_brace (h : Follows k s r) {b : Text}
    (hline : Text.blank b = false → Text.trim b.reverse ≠ ['\x7b'] →
      r.bufferLine = s.bufferLine + k) :
    Follows k ({ s with buffer := b } : Cutter).flush
      ({ r with buffer := b } : Cutter).flush := by
  have hempty : Text.blank [] = false → r.bufferLine = s.bufferLine + k :=
    fun hheld => (Bool.false_ne_true hheld.symm).elim
  cases hheld : Text.blank b with
  | true =>
    rw [flush_of_blank (s := { s with buffer := b }) hheld,
      flush_of_blank (s := { r with buffer := b }) hheld]
    exact { h with buffer := rfl, bufferLine := hempty }
  | false =>
    have hsegment : Segment.Moved k ⟨Text.trim b.reverse, s.bufferLine, s.doc⟩
        ⟨Text.trim b.reverse, r.bufferLine, r.doc⟩ :=
      ⟨congrArg (Prod.mk _) h.doc, hline hheld⟩
    rw [flush_of_held (s := { s with buffer := b }) hheld,
      flush_of_held (s := { r with buffer := b }) hheld]
    exact { h with
      buffer := rfl
      doc := rfl
      bufferLine := hempty
      done := .cons hsegment h.done }

theorem flush (h : Follows k s r) : Follows k s.flush r.flush := by
  have hsame : ({ r with buffer := s.buffer } : Cutter) = r := by rw [← h.buffer]
  rw [← hsame]
  exact h.flush_brace fun hheld _ => h.bufferLine hheld

theorem add (h : Follows k s r) (c : Char) : Follows k (s.add c) (r.add c) :=
  { h with
    buffer := congrArg (c :: ·) h.buffer
    bufferLine := by
      intro hheld
      show (if !Text.isBlank c && Text.blank r.buffer then r.line else r.bufferLine) =
        (if !Text.isBlank c && Text.blank s.buffer then s.line else s.bufferLine) + k
      rw [h.buffer]
      split
      · exact h.line
      · rename_i hlater
        refine h.bufferLine ?_
        have hc : Text.blank (c :: s.buffer) = (Text.isBlank c && Text.blank s.buffer) := rfl
        change Text.blank (c :: s.buffer) = false at hheld
        rw [hc] at hheld
        cases hblank : Text.isBlank c with
        | true => rwa [hblank, Bool.true_and] at hheld
        | false => simpa [hblank] using hlater
    last := .inl rfl }

theorem addCode (h : Follows k s r) (c : Char) :
    Follows k (s.addCode c) (r.addCode c) :=
  { h.add c with angles := h.anglesAfter c, parens := h.parensAfter c }

/-- Whatever character of code is read last. -/
theorem setLast (h : Follows k s r) (c : Char) :
    Follows k { s with last := c } { r with last := c } :=
  { h with last := .inl rfl }

/-- More of a segment that has begun. -/
theorem push (h : Follows k s r) (hheld : Text.blank s.buffer = false) (t : Text) :
    Follows k { s with buffer := t ++ s.buffer } { r with buffer := t ++ r.buffer } :=
  { h with buffer := congrArg (t ++ ·) h.buffer, bufferLine := fun _ => h.bufferLine hheld }

theorem openBrace (h : Follows k s r) : Follows k s.openBrace r.openBrace := by
  have hflush : Follows k ({ s with buffer := '\x7b' :: s.buffer } : Cutter).flush
      ({ r with buffer := '\x7b' :: s.buffer } : Cutter).flush := by
    refine h.flush_brace fun _ halone => h.bufferLine (Bool.eq_false_iff.2 fun hblank => ?_)
    refine halone ?_
    rw [List.reverse_cons, Text.trim_append (by simpa [Text.blank] using hblank)]
    decide +kernel
  unfold Cutter.openBrace
  rw [h.buffer]
  exact hflush.setLast _

theorem closeBrace (h : Follows k s r) : Follows k s.closeBrace r.closeBrace := by
  have hsegment : Segment.Moved k ⟨['\x7d'], s.flush.line, none⟩ ⟨['\x7d'], r.flush.line, none⟩ :=
    ⟨rfl, fun _ => h.flush.line⟩
  exact { h.flush with
    doc := rfl
    last := .inl rfl
    done := .cons hsegment h.flush.done }

theorem stepCode (h : Follows k s r) (c : Char) :
    Follows k (s.stepCode c) (r.stepCode c) := by
  have hline : r.line + 1 = s.line + 1 + k := by
    rw [h.line]
    omega
  unfold Cutter.stepCode
  rw [h.nested]
  split
  · exact { h.add c with mode := rfl }
  split
  · exact { h with mode := rfl }
  split
  · split
    · exact { h with
        buffer := congrArg (' ' :: ·) h.buffer
        line := hline
        bufferLine := fun hheld => h.bufferLine hheld
        last := .inl rfl }
    · exact h.addCode c
  split
  · exact h.openBrace
  split
  · exact h.closeBrace
  split
  · exact h.flush.setLast c
  split
  · exact { h.flush with line := hline, last := .inl rfl }
  · exact h.addCode c

theorem endLineComment (h : Follows k s r) (read : Text) :
    Follows k (s.endLineComment read) (r.endLineComment read) := by
  have hcode : Follows k { s with mode := .code } { r with mode := .code } :=
    { h with mode := rfl }
  have hblank : Text.blank r.buffer = Text.blank s.buffer := congrArg Text.blank h.buffer
  have hmoved := h.done
  unfold Cutter.endLineComment
  dsimp only
  rw [hcode.nested, hblank]
  split
  · exact hcode
  split
  · rename_i hheld
    exact hcode.push (by simpa using hheld) _
  cases hs : s.done with
  | nil =>
    rw [hs] at hcode hmoved
    rw [List.forall₂_nil_left_iff] at hmoved
    rw [hmoved] at hcode ⊢
    exact hcode
  | cons last rest =>
    rw [hs] at hcode hmoved
    obtain ⟨last', rest', hlast, hrest, hr⟩ := List.forall₂_cons_left_iff.1 hmoved
    have hdoc : last'.doc = last.doc := congrArg Prod.snd hlast.content
    have htext : last'.text = last.text := congrArg Prod.fst hlast.content
    have htakes : last'.takesComment = last.takesComment := by
      rw [Segment.takesComment, Segment.takesComment, htext]
    have hsame : (last'.line = r.line && last'.takesComment) =
        (last.line = s.line && last.takesComment) := by
      rw [htakes]
      cases hcomment : last.takesComment with
      | false => rw [Bool.and_false, Bool.and_false]
      | true =>
        rw [hlast.line (Segment.ne_brace_of_takesComment hcomment), h.line]
        simp
    rw [hr] at hcode ⊢
    dsimp only
    rw [hsame]
    split
    · rename_i hjoin
      simp only [Bool.and_eq_true] at hjoin
      refine { hcode with done := .cons ⟨?_, fun _ => ?_⟩ hrest }
      · simp only [Segment.content, htext, hdoc]
      · exact hlast.line (Segment.ne_brace_of_takesComment hjoin.2)
    · exact hcode

theorem endBlockComment (h : Follows k s r) (body : Text) :
    Follows k (s.endBlockComment body) (r.endBlockComment body) := by
  refine { h with mode := rfl, doc := ?_ }
  unfold Cutter.endBlockComment
  dsimp only
  rw [h.doc]

theorem step (h : Follows k s r) (hclean : Clean s) (c : Char) :
    Follows k (s.step c) (r.step c) := by
  have hcode : Follows k { s with mode := .code } { r with mode := .code } :=
    { h with mode := rfl }
  have hline : r.line + 1 = s.line + 1 + k := by
    rw [h.line]
    omega
  unfold Cutter.step
  rw [h.mode]
  split
  · exact h.stepCode c
  · split
    · exact { h with mode := rfl, last := .inl rfl }
    split
    · exact { h with mode := rfl, last := .inl rfl }
    · exact (hcode.addCode '/').stepCode c
  · rename_i mark hmode
    have hheld := hclean.held_of_literal (.inl hmode)
    split
    · have hopen : Follows k { s with mode := .code, angles := 0, parens := 0 }
          { r with mode := .code, angles := 0, parens := 0 } :=
        { h with mode := rfl, angles := rfl, parens := rfl }
      exact { hopen.flush with line := hline }
    split
    · exact { h.push hheld [c] with mode := rfl }
    split
    · exact { h.push hheld [c] with mode := rfl, last := .inl rfl }
    · exact { h.push hheld [c] with mode := rfl }
  · rename_i mark hmode
    exact { h.push (hclean.held_of_literal (.inr hmode)) [c] with mode := rfl }
  · split
    · exact (h.endLineComment _).stepCode c
    · exact { h with mode := rfl }
  · split
    · exact h.endBlockComment _
    · refine { h with mode := rfl, line := ?_ }
      dsimp only
      split
      · exact hline
      · exact h.line

theorem run (h : Follows k s r) (hclean : Clean s) (t : Text) : Follows k (s.run t) (r.run t) := by
  induction t generalizing s r with
  | nil => exact h
  | cons c t ih => exact ih (h.step hclean c) (hclean.step c)

theorem finish (h : Follows k s r) : List.Forall₂ (Segment.Moved k) s.finish r.finish := by
  have hflush : ∀ {s r : Cutter}, Follows k s r →
      List.Forall₂ (Segment.Moved k) s.flush.done.reverse r.flush.done.reverse :=
    fun h => List.rel_reverse h.flush.done
  unfold Cutter.finish
  dsimp only
  rw [h.mode]
  split
  · exact hflush (h.addCode '/')
  · exact hflush (h.endLineComment _)
  · exact hflush (h.endBlockComment _)
  · exact hflush h

end Follows

end Cutter

/-! ## The end of a text -/

/-- A literal or a block comment is open. -/
def Mode.unfinished : Mode → Bool
  | .literal _ | .escape _ | .blockComment _ => true
  | .code | .slash | .lineComment _ => false

/-- At the end of the text no literal, block comment or bracket is open, and no block comment waits
for a segment once the last line has ended. -/
structure Text.Closed (t : Text) : Prop where
  mode : (Cutter.start.run t).mode.unfinished = false
  angles : (Cutter.start.run t).angles = 0
  parens : (Cutter.start.run t).parens = 0
  doc : ((Cutter.start.run t).step '\n').doc = none

namespace Cutter

/-- The end of a closed text ends its last line. -/
theorem exists_lastLine {t : Text} (h : t.Closed) :
    ∃ s : Cutter, s.mode = .code ∧ s.angles = 0 ∧ s.parens = 0 ∧ Counted 0 s ∧
      (start.run t).step '\n' = { s.flush with line := s.line + 1, last := '\n' } ∧
      Segment.cut t = s.flush.done.reverse := by
  have hcounted := counted_start.run t
  obtain ⟨hmode, hangles, hparens, -⟩ := h
  unfold Segment.cut finish
  generalize start.run t = s at hcounted hmode hangles hparens
  have hnested : ∀ r : Cutter, r.angles = 0 → r.parens = 0 → r.nested = false := by
    intro r hangles hparens
    simp [nested, hangles, hparens]
  cases hs : s.mode with
  | code =>
    exact ⟨s, hs, hangles, hparens, hcounted, step_newline hs (hnested s hangles hparens), rfl⟩
  | slash =>
    have hcode : Counted 0 { s with mode := .code } :=
      ⟨hcounted.after, hcounted.buffer, hcounted.done⟩
    have hslash : (({ s with mode := .code } : Cutter).addCode '/').angles = 0 ∧
        (({ s with mode := .code } : Cutter).addCode '/').parens = 0 := ⟨hangles, hparens⟩
    refine ⟨_, rfl, hslash.1, hslash.2, hcode.addCode '/', ?_,
      congrArg List.reverse (done_flush_congr (r := s.addCode '/') rfl rfl rfl rfl)⟩
    have hstep : s.step '\n' = (({ s with mode := .code } : Cutter).addCode '/').stepCode '\n' := by
      simp [step, hs]
    rw [hstep]
    exact stepCode_newline (hnested _ hslash.1 hslash.2)
  | lineComment read =>
    have hsame : (s.endLineComment read).angles = 0 ∧ (s.endLineComment read).parens = 0 := by
      rcases s.endLineComment_cases read with ⟨_, -, heq⟩ | ⟨_, _, _, -, -, heq⟩
      · rw [heq]
        exact ⟨hangles, hparens⟩
      · rw [heq]
        exact ⟨hangles, hparens⟩
    refine ⟨_, s.mode_endLineComment read, hsame.1, hsame.2, hcounted.endLineComment read, ?_, rfl⟩
    have hstep : s.step '\n' = (s.endLineComment read).stepCode '\n' := by
      simp [step, hs]
    rw [hstep]
    exact stepCode_newline (hnested _ hsame.1 hsame.2)
  | literal mark | escape mark | blockComment read =>
    rw [hs] at hmode
    cases hmode

end Cutter

/-- The next line after a closed text is cut as if nothing stood before it, but for the lines. -/
theorem Segment.exists_cut_append_newline {t : Text} (h : t.Closed) (u : Text) :
    ∃ k segments, k + 1 = ((Cutter.start.run t).step '\n').line ∧
      cut (t ++ '\n' :: u) = cut t ++ segments ∧ List.Forall₂ (Moved k) (cut u) segments := by
  obtain ⟨s, hmode, hangles, hparens, hcounted, hstep, hcut⟩ := Cutter.exists_lastLine h
  have hdoc := h.doc
  rw [cut, Cutter.run_append, Cutter.run_cons]
  rw [hstep] at hdoc ⊢
  -- The pass after `t` without what it has read there.
  generalize hr : ({ s.flush with line := s.line + 1, last := '\n', done := [] } : Cutter) = r
  have hfollows : Cutter.Follows s.line Cutter.start r := by
    have hinert : Cutter.inert '\x00' = true ∧ Cutter.inert '\n' = true := by decide +kernel
    rw [← hr]
    exact {
      mode := s.mode_flush.trans hmode
      buffer := s.buffer_flush
      doc := hdoc
      angles := s.angles_flush.trans hangles
      parens := s.parens_flush.trans hparens
      line := Nat.add_comm _ _
      bufferLine := nofun
      last := .inr hinert
      done := .nil }
  have hframed : Cutter.Framed [] s.flush.done r
      { s.flush with line := s.line + 1, last := '\n' } := by
    rw [← hr]
    exact ⟨[], rfl, rfl⟩
  have hafter : Cutter.Counted s.line r := by
    rw [← hr]
    refine ⟨Nat.lt_succ_self _, ?_, nofun⟩
    rw [← s.line_flush]
    exact Nat.le_succ_of_le hcounted.flush.buffer
  have hlines : ∀ segment ∈ s.flush.done, segment.line ≤ s.line := by
    rw [← s.line_flush]
    exact hcounted.flush.done
  have hshut : Cutter.Shut s.line s.flush.done := .of_lines hlines
  obtain ⟨segments, hsegments, hall⟩ :=
    (hframed.run hafter nofun hshut u).finish nofun hshut (hafter.run u).after
  have hfinish := (hfollows.run Cutter.clean_start u).finish
  rw [hsegments] at hfinish
  exact ⟨s.line, segments, rfl, by rw [hall, hcut], hfinish⟩

theorem Segment.cut_append_newline {t : Text} (h : t.Closed) (u : Text) :
    (cut (t ++ '\n' :: u)).map content = (cut t ++ cut u).map content := by
  obtain ⟨k, segments, -, hcut, hmoved⟩ := exists_cut_append_newline h u
  rw [hcut, List.map_append, List.map_append, content_of_moved hmoved]

/-- The segments of texts that are joined by newlines are those of the texts. What stands last may
be left open. -/
theorem Segment.cut_joinWith_concat {texts : List Text} (h : ∀ t ∈ texts, t.Closed) (u : Text) :
    (cut (Text.joinWith ['\n'] (texts ++ [u]))).map content =
      (texts.flatMap cut ++ cut u).map content := by
  induction texts with
  | nil => rw [List.nil_append, Text.joinWith_singleton, List.flatMap_nil, List.nil_append]
  | cons t texts ih =>
    have hrest := ih fun x hx => h x (List.mem_cons_of_mem t hx)
    rw [List.cons_append, Text.joinWith_cons _ _ (List.append_ne_nil_of_right_ne_nil _ (by simp)),
      List.append_assoc, List.singleton_append, cut_append_newline (h t List.mem_cons_self),
      List.map_append, hrest, ← List.map_append, List.flatMap_cons, List.append_assoc]

theorem Segment.cut_joinWith {texts : List Text} (h : ∀ t ∈ texts, t.Closed) :
    (cut (Text.joinWith ['\n'] texts)).map content = (texts.flatMap cut).map content := by
  rcases List.eq_nil_or_concat' texts with rfl | ⟨texts, u, rfl⟩
  · rfl
  · rw [cut_joinWith_concat (fun t ht => h t (List.mem_append_left [u] ht)) u, List.flatMap_append,
      List.flatMap_singleton]

/-- So are the segments of texts of which each ends with a newline. -/
theorem Segment.cut_lines {texts : List Text} (h : ∀ t ∈ texts, t.Closed) :
    (cut (texts.map (· ++ ['\n'])).flatten).map content = (texts.flatMap cut).map content := by
  induction texts with
  | nil => rfl
  | cons t texts ih =>
    rw [List.map_cons, List.flatten_cons, List.append_assoc, List.singleton_append,
      cut_append_newline (h t List.mem_cons_self), List.map_append,
      ih fun x hx => h x (List.mem_cons_of_mem t hx), ← List.map_append]
    rfl

end InterfaceForms

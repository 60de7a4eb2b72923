import InterfaceForms.Proofs.Braces

/-!
# Segments of earlier lines

The pass that cuts a text never comes back to the segments of earlier lines: a comment joins one of
its own line at most. So the pass reads the same after other segments as long as these are of lines
before, or the last of them takes no comment.

* `Cutter.Counted.step`: no segment is of a line that has not begun.
* `Cutter.Framed.run`: what stands before is left alone and makes no difference.
-/

namespace InterfaceForms

namespace Cutter

/-! ## Numbers of lines -/

/-- The pass has come to a line after the first `n`, and no segment is of a line that has not
begun. -/
structure Counted (n : Nat) (s : Cutter) : Prop where
  after : n < s.line
  buffer : s.bufferLine ≤ s.line
  done : ∀ segment ∈ s.done, segment.line ≤ s.line

theorem counted_start : Counted 0 start := ⟨by decide, by decide, nofun⟩

theorem flush_of_blank {s : Cutter} (h : Text.blank s.buffer = true) :
    s.flush = { s with buffer := [] } := by
  have htrim : Text.trim s.buffer.reverse = [] :=
    Text.trim_eq_nil.2 (by simpa [Text.blank] using h)
  simp [flush, htrim]

theorem flush_of_held {s : Cutter} (h : Text.blank s.buffer = false) :
    s.flush =
      { s with
        buffer := []
        done := ⟨Text.trim s.buffer.reverse, s.bufferLine, s.doc⟩ :: s.done
        doc := none } := by
  have htrim : Text.trim s.buffer.reverse ≠ [] := fun hnil => by
    have hblank := Text.trim_eq_nil.1 hnil
    rw [Text.blank, List.all_reverse] at hblank
    exact absurd (h.symm.trans hblank) Bool.false_ne_true
  simp [flush, htrim]

/-- What the segments are at the end depends on what is held, up to blanks. -/
theorem done_flush_congr {s r : Cutter} (hdone : r.done = s.done)
    (hline : r.bufferLine = s.bufferLine) (hdoc : r.doc = s.doc)
    (htext : Text.trim r.buffer.reverse = Text.trim s.buffer.reverse) :
    r.flush.done = s.flush.done := by
  unfold flush
  dsimp only
  rw [htext, hdone, hline, hdoc]
  split <;> rfl

theorem line_flush (s : Cutter) : s.flush.line = s.line := by
  unfold flush
  dsimp only
  split <;> rfl

theorem angles_flush (s : Cutter) : s.flush.angles = s.angles := by
  unfold flush
  dsimp only
  split <;> rfl

theorem parens_flush (s : Cutter) : s.flush.parens = s.parens := by
  unfold flush
  dsimp only
  split <;> rfl

/-- A comment after the first `n` lines joins none of the segments, of which only the last, the
first of the list, is in question: either it is of these lines, or it takes no comment. -/
def Shut (n : Nat) (done : List Segment) : Prop :=
  ∀ last ∈ done.head?, last.takesComment = true → last.line ≤ n

theorem Shut.of_lines {n : Nat} {done : List Segment}
    (h : ∀ segment ∈ done, segment.line ≤ n) : Shut n done :=
  fun last hlast _ => h last (List.mem_of_mem_head? hlast)

/-- A comment on a line of its own is dropped. -/
theorem endLineComment_of_shut {n : Nat} {s : Cutter} (hblank : Text.blank s.buffer = true)
    (hdone : Shut n s.done) (hafter : n < s.line) (read : Text) :
    s.endLineComment read = { s with mode := .code } := by
  unfold endLineComment
  simp only [hblank]
  split
  · rfl
  · cases hs : s.done with
    | nil => rfl
    | cons last done =>
      have hnot : (last.line = s.line && last.takesComment) = false := by
        rw [Bool.eq_false_iff]
        simp only [ne_eq, Bool.and_eq_true, decide_eq_true_eq]
        rintro ⟨hline, htakes⟩
        have hearlier := hdone last (by rw [hs, List.head?_cons, Option.mem_some_iff]) htakes
        omega
      simp [hnot]

namespace Counted

variable {n : Nat} {s r : Cutter}

/-- What is read on the same line, or on a later one. -/
theorem later (h : Counted n s) (hline : s.line ≤ r.line) (hbuffer : r.bufferLine ≤ r.line)
    (hdone : r.done = s.done) : Counted n r where
  after := Nat.lt_of_lt_of_le h.after hline
  buffer := hbuffer
  done segment hsegment := Nat.le_trans (h.done segment (hdone ▸ hsegment)) hline

theorem flush (h : Counted n s) : Counted n s.flush := by
  cases hblank : Text.blank s.buffer with
  | true =>
    rw [flush_of_blank hblank]
    exact ⟨h.after, h.buffer, h.done⟩
  | false =>
    rw [flush_of_held hblank]
    exact ⟨h.after, h.buffer, List.forall_mem_cons.2 ⟨h.buffer, h.done⟩⟩

/-- The end of a line ends what is held. -/
theorem newline (h : Counted n s) (hline : r.line = s.line + 1)
    (hbuffer : r.bufferLine = s.flush.bufferLine) (hdone : r.done = s.flush.done) :
    Counted n r := by
  refine h.flush.later ?_ ?_ hdone
  · rw [hline, line_flush]
    exact Nat.le_succ _
  · rw [hline, hbuffer, ← line_flush s]
    exact Nat.le_succ_of_le h.flush.buffer

theorem add (h : Counted n s) (c : Char) : Counted n (s.add c) := by
  refine h.later (Nat.le_refl _) ?_ rfl
  unfold Cutter.add
  dsimp only
  split
  · exact Nat.le_refl _
  · exact h.buffer

theorem addCode (h : Counted n s) (c : Char) : Counted n (s.addCode c) :=
  ⟨h.after, (h.add c).buffer, h.done⟩

theorem stepCode (h : Counted n s) (c : Char) : Counted n (s.stepCode c) := by
  unfold Cutter.stepCode
  split
  · exact ⟨h.after, (h.add c).buffer, h.done⟩
  split
  · exact ⟨h.after, h.buffer, h.done⟩
  split
  · split
    · exact h.later (Nat.le_succ _) (Nat.le_succ_of_le h.buffer) rfl
    · exact h.addCode c
  split
  · have hflush : Counted n ({ s with buffer := '\x7b' :: s.buffer } : Cutter).flush :=
      flush ⟨h.after, h.buffer, h.done⟩
    exact ⟨hflush.after, hflush.buffer, hflush.done⟩
  split
  · exact ⟨h.flush.after, h.flush.buffer,
      List.forall_mem_cons.2 ⟨Nat.le_refl _, h.flush.done⟩⟩
  split
  · exact ⟨h.flush.after, h.flush.buffer, h.flush.done⟩
  split
  · exact h.newline rfl rfl rfl
  · exact h.addCode c

theorem endLineComment (h : Counted n s) (read : Text) : Counted n (s.endLineComment read) := by
  rcases s.endLineComment_cases read with ⟨t, -, heq⟩ | ⟨last, done, comment, hdone, -, heq⟩
  · rw [heq]
    exact ⟨h.after, h.buffer, h.done⟩
  · rw [heq]
    have hall := h.done
    rw [hdone] at hall
    obtain ⟨hlast, hrest⟩ := List.forall_mem_cons.1 hall
    exact ⟨h.after, h.buffer, List.forall_mem_cons.2 ⟨hlast, hrest⟩⟩

theorem step (h : Counted n s) (c : Char) : Counted n (s.step c) := by
  unfold Cutter.step
  split
  · exact h.stepCode c
  · split
    · exact ⟨h.after, h.buffer, h.done⟩
    split
    · exact ⟨h.after, h.buffer, h.done⟩
    · have hcode : Counted n { s with mode := .code } := ⟨h.after, h.buffer, h.done⟩
      exact (hcode.addCode '/').stepCode c
  · split
    · have hcode : Counted n { s with mode := .code, angles := 0, parens := 0 } :=
        ⟨h.after, h.buffer, h.done⟩
      exact hcode.newline rfl rfl rfl
    split
    · exact ⟨h.after, h.buffer, h.done⟩
    split
    · exact ⟨h.after, h.buffer, h.done⟩
    · exact ⟨h.after, h.buffer, h.done⟩
  · exact ⟨h.after, h.buffer, h.done⟩
  · split
    · exact (h.endLineComment _).stepCode c
    · exact ⟨h.after, h.buffer, h.done⟩
  · split
    · exact ⟨h.after, h.buffer, h.done⟩
    · refine h.later ?_ ?_ rfl
      · dsimp only
        split <;> omega
      · have := h.buffer
        dsimp only
        split <;> omega

theorem run (h : Counted n s) (t : Text) : Counted n (s.run t) := by
  induction t generalizing s with
  | nil => exact h
  | cons c t ih => exact ih (h.step c)

end Counted

/-! ## Other segments before -/

/-- The pass `r` has read the segments `old'` where `s` has read `old`, and the same since. -/
def Framed (old old' : List Segment) (s r : Cutter) : Prop :=
  ∃ done, s.done = done ++ old ∧ r = { s with done := done ++ old' }

namespace Framed

variable {n : Nat} {old old' : List Segment} {s r : Cutter}

theorem flush (h : Framed old old' s r) : Framed old old' s.flush r.flush := by
  obtain ⟨done, hdone, rfl⟩ := h
  unfold Cutter.flush
  dsimp only
  split
  · exact ⟨done, hdone, rfl⟩
  · exact ⟨_ :: done, congrArg (_ :: ·) hdone, rfl⟩

/-- What touches no segment. -/
theorem map (h : Framed old old' s r) (f : Cutter → Cutter)
    (hf : ∀ s done, f { s with done := done } = { f s with done := done }) :
    Framed old old' (f s) (f r) := by
  obtain ⟨done, hdone, rfl⟩ := h
  refine ⟨done, ?_, hf s _⟩
  have hsame : f s = { f s with done := s.done } := hf s s.done
  rw [hsame]
  exact hdone

theorem add (h : Framed old old' s r) (c : Char) : Framed old old' (s.addCode c) (r.addCode c) :=
  h.map (·.addCode c) fun _ _ => rfl

theorem closeBrace (h : Framed old old' s r) : Framed old old' s.closeBrace r.closeBrace := by
  obtain ⟨done, hdone, hr⟩ := h.flush
  refine ⟨⟨['\x7d'], s.flush.line, none⟩ :: done, congrArg (_ :: ·) hdone, ?_⟩
  unfold Cutter.closeBrace
  dsimp only
  rw [hr]
  rfl

theorem stepCode (h : Framed old old' s r) (c : Char) :
    Framed old old' (s.stepCode c) (r.stepCode c) := by
  obtain ⟨done, hdone, rfl⟩ := id h
  have hnested : ({ s with done := done ++ old' } : Cutter).nested = s.nested := rfl
  unfold Cutter.stepCode
  rw [hnested]
  split
  · exact h.map (fun x => { x.add c with mode := .literal c }) fun _ _ => rfl
  split
  · exact h.map (fun x => { x with mode := .slash }) fun _ _ => rfl
  split
  · split
    · exact h.map (fun x => { x with buffer := ' ' :: x.buffer, line := x.line + 1, last := c })
        fun _ _ => rfl
    · exact h.add c
  split
  · have hpush := h.map (fun x => { x with buffer := '\x7b' :: x.buffer }) fun _ _ => rfl
    exact hpush.flush.map (fun x => { x with last := '\x7b' }) fun _ _ => rfl
  split
  · exact h.closeBrace
  split
  · exact h.flush.map (fun x => { x with last := c }) fun _ _ => rfl
  split
  · exact h.flush.map (fun x => { x with line := s.line + 1, last := c }) fun _ _ => rfl
  · exact h.add c

/-- A comment joins no segment that is shut. -/
theorem endLineComment (h : Framed old old' s r) (hold : Shut n old) (hold' : Shut n old')
    (hafter : n < s.line) (read : Text) :
    Framed old old' (s.endLineComment read) (r.endLineComment read) := by
  obtain ⟨done, hdone, rfl⟩ := id h
  have hcode := h.map (fun x => { x with mode := .code }) fun _ _ => rfl
  have hnested : ({ s with mode := .code, done := done ++ old' } : Cutter).nested =
      ({ s with mode := .code } : Cutter).nested := rfl
  by_cases hearlier : Text.blank s.buffer = true ∧ done = []
  · obtain ⟨hblank, rfl⟩ := hearlier
    rw [List.nil_append] at hdone
    rw [endLineComment_of_shut hblank (hdone ▸ hold) hafter,
      endLineComment_of_shut (s := { s with done := [] ++ old' }) hblank hold' hafter]
    exact hcode
  unfold Cutter.endLineComment
  dsimp only
  rw [hnested]
  split
  · exact hcode
  split
  · exact ⟨done, hdone, rfl⟩
  · rename_i hblank
    obtain ⟨last, done, rfl⟩ := List.exists_cons_of_ne_nil fun hnil =>
      hearlier ⟨by simpa using hblank, hnil⟩
    rw [hdone]
    dsimp only [List.cons_append]
    split
    · exact ⟨_ :: done, rfl, rfl⟩
    · exact ⟨last :: done, rfl, rfl⟩

theorem endBlockComment (h : Framed old old' s r) (body : Text) :
    Framed old old' (s.endBlockComment body) (r.endBlockComment body) :=
  h.map (·.endBlockComment body) fun _ _ => rfl

theorem step (h : Framed old old' s r) (hold : Shut n old) (hold' : Shut n old')
    (hafter : n < s.line) (c : Char) :
    Framed old old' (s.step c) (r.step c) := by
  obtain ⟨done, hdone, rfl⟩ := id h
  have hcode := h.map (fun x => { x with mode := .code }) fun _ _ => rfl
  unfold Cutter.step
  dsimp only
  split
  · exact h.stepCode c
  · split
    · exact h.map (fun x => { x with mode := .lineComment [], last := '/' }) fun _ _ => rfl
    split
    · exact h.map (fun x => { x with mode := .blockComment [], last := '/' }) fun _ _ => rfl
    · exact (hcode.add '/').stepCode c
  · split
    · have hopen := h.map (fun x => { x with mode := .code, angles := 0, parens := 0 })
        fun _ _ => rfl
      exact hopen.flush.map (fun x => { x with line := s.line + 1 }) fun _ _ => rfl
    split
    · exact h.map (fun x => { x with buffer := c :: x.buffer, mode := .escape _ }) fun _ _ => rfl
    split
    · exact h.map (fun x => { x with buffer := c :: x.buffer, mode := .code, last := c })
        fun _ _ => rfl
    · exact h.map (fun x => { x with buffer := c :: x.buffer }) fun _ _ => rfl
  · exact h.map (fun x => { x with buffer := c :: x.buffer, mode := .literal _ }) fun _ _ => rfl
  · split
    · exact (h.endLineComment hold hold' hafter _).stepCode c
    · exact h.map (fun x => { x with mode := .lineComment (c :: _) }) fun _ _ => rfl
  · split
    · exact h.endBlockComment _
    · exact h.map (fun x => { x with
        mode := .blockComment (c :: _)
        line := if c = '\n' then x.line + 1 else x.line }) fun _ _ => rfl

theorem run (h : Framed old old' s r) (hcounted : Counted n s) (hold : Shut n old)
    (hold' : Shut n old') (t : Text) : Framed old old' (s.run t) (r.run t) := by
  induction t generalizing s r with
  | nil => exact h
  | cons c t ih => exact ih (h.step hold hold' hcounted.after c) (hcounted.step c)

theorem finish (h : Framed old old' s r) (hold : Shut n old) (hold' : Shut n old')
    (hafter : n < s.line) :
    ∃ segments, s.finish = old.reverse ++ segments ∧ r.finish = old'.reverse ++ segments := by
  have hflush : ∀ {s r : Cutter}, Framed old old' s r → ∃ segments,
      s.flush.done.reverse = old.reverse ++ segments ∧
        r.flush.done.reverse = old'.reverse ++ segments := by
    intro s r h
    obtain ⟨done, hdone, hr⟩ := h.flush
    exact ⟨done.reverse, by rw [hdone, List.reverse_append], by rw [hr, List.reverse_append]⟩
  obtain ⟨done, hdone, rfl⟩ := id h
  unfold Cutter.finish
  dsimp only
  split
  · exact hflush (h.add '/')
  · exact hflush (h.endLineComment hold hold' hafter _)
  · exact hflush (h.endBlockComment _)
  · exact hflush h

end Framed

end Cutter

end InterfaceForms

import InterfaceForms.Proofs.CommentedMembers
import InterfaceForms.Proofs.EarlierLines

/-!
# Characters that the segments keep

The segments of a text without slashes, and so without comments, keep all its characters but the
blanks and the semicolons at which it is cut. Literals that are never closed and brackets that do not
match make no difference: each character is held, or it ends what is held.

* `Cutter.Reads`: what a character does to the segments.
* `Cutter.gathered_run`: a part of the text is found again in what is read.
* `Segment.cut_keeps`: the text is found again in its segments.
-/

namespace InterfaceForms

namespace Text

/-- The characters that are not blank. -/
def withoutBlanks (t : Text) : Text := t.filter fun c => !isBlank c

theorem withoutBlanks_append (t u : Text) :
    withoutBlanks (t ++ u) = withoutBlanks t ++ withoutBlanks u :=
  List.filter_append t u

theorem withoutBlanks_of_blank {t : Text} (h : blank t = true) : withoutBlanks t = [] := by
  rw [withoutBlanks, List.filter_eq_nil_iff]
  intro c hc
  simp [List.all_eq_true.1 h c hc]

theorem withoutBlanks_trim (t : Text) : withoutBlanks (trim t) = withoutBlanks t := by
  obtain ⟨e, he, hend⟩ := exists_trimEnd (trimStart t)
  have hstart : blank (t.takeWhile isBlank) = true := List.all_takeWhile
  have htrim : trimStart t = trim t ++ e := hend
  calc withoutBlanks (trim t) = withoutBlanks (t.takeWhile isBlank ++ trimStart t) := by
        rw [withoutBlanks_append, withoutBlanks_of_blank hstart, List.nil_append, htrim,
          withoutBlanks_append, withoutBlanks_of_blank he, List.append_nil]
    _ = withoutBlanks t := by rw [trimStart, List.takeWhile_append_dropWhile]

end Text

/-- The characters of segments that are not blank, in order. -/
def Segment.gathered (segments : List Segment) : Text :=
  Text.withoutBlanks (segments.flatMap (·.text))

theorem Segment.gathered_append (segments others : List Segment) :
    gathered (segments ++ others) = gathered segments ++ gathered others := by
  rw [gathered, List.flatMap_append, Text.withoutBlanks_append]
  rfl

theorem Segment.gathered_singleton (s : Segment) : gathered [s] = Text.withoutBlanks s.text := by
  rw [gathered, List.flatMap_singleton]

/-- No comment is being read, and no slash that may open one. -/
def Mode.plain : Mode → Bool
  | .code => true
  | .literal _ => true
  | .escape _ => true
  | _ => false

namespace Cutter

variable {s r : Cutter} {c : Char} {t : Text}

/-! ## One character -/

/-- The characters that cut outside literals and open `<` and `(`, beside the newline. -/
def cuts : Text := ['\x7b', '\x7d', ';']

/-- What a character does to the segments, outside comments. -/
inductive Reads (s : Cutter) (c : Char) (r : Cutter) : Prop
  /-- The character is held, or a space in the place of a newline. -/
  | hold (d : Char) (hd : Text.withoutBlanks [d] = Text.withoutBlanks [c])
    (hcuts : s.bare = true → c ∉ cuts) (hbuffer : r.buffer = d :: s.buffer)
    (hdone : r.done = s.done)
  /-- The character ends what is held and is dropped. -/
  | stop (hc : c = '\n' ∨ s.bare = true ∧ c = ';') (hbuffer : r.buffer = [])
    (hdone : r.done = s.flush.done)
  | opening (hbare : s.bare = true) (hc : c = '\x7b') (hbuffer : r.buffer = [])
    (hdone : r.done = ({ s with buffer := '\x7b' :: s.buffer } : Cutter).flush.done)
  | closing (hbare : s.bare = true) (hc : c = '\x7d') (hbuffer : r.buffer = [])
    (hdone : r.done = ⟨['\x7d'], s.line, none⟩ :: s.flush.done)

theorem not_mem_cuts_of_isQuoteMark (h : isQuoteMark c = true) : c ∉ cuts := by
  intro hc
  have hnone : ∀ d ∈ cuts, isQuoteMark d = false := by decide
  rw [hnone c hc] at h
  cases h

theorem reads_stepCode (hmode : s.mode = .code) (hc : c ≠ '/') :
    (s.stepCode c).mode.plain = true ∧ Reads s c (s.stepCode c) := by
  have hplain : s.mode.plain = true := by
    rw [hmode]
    rfl
  have hflush : ∀ r : Cutter, r.mode = s.mode → r.flush.mode.plain = true := by
    intro r hr
    rw [mode_flush, hr, hplain]
  have hbare : s.bare = !s.nested := by simp [bare, hmode]
  unfold stepCode
  split
  · rename_i hquote
    exact ⟨rfl, .hold c rfl (fun _ => not_mem_cuts_of_isQuoteMark hquote) rfl rfl⟩
  cases hnested : s.nested with
  | true =>
    have hnot : s.bare = true → c ∉ cuts := by simp [hbare, hnested]
    rw [if_pos rfl]
    split
    · rename_i hnewline
      subst hnewline
      exact ⟨hplain, .hold ' ' rfl hnot rfl rfl⟩
    · exact ⟨hplain, .hold c rfl hnot rfl rfl⟩
  | false =>
    have hopen : s.bare = true := by rw [hbare, hnested, Bool.not_false]
    rw [if_neg Bool.false_ne_true]
    split
    · rename_i hbrace
      exact ⟨hflush _ rfl, .opening hopen hbrace (buffer_flush _) rfl⟩
    split
    · rename_i hbrace
      refine ⟨hflush s rfl, .closing hopen hbrace (buffer_flush s) ?_⟩
      rw [closeBrace, line_flush]
    split
    · rename_i hsemicolon
      exact ⟨hflush s rfl, .stop (.inr ⟨hopen, hsemicolon⟩) (buffer_flush s) rfl⟩
    split
    · rename_i hnewline
      exact ⟨hflush s rfl, .stop (.inl hnewline) (buffer_flush s) rfl⟩
    · rename_i hbrace hbrace' hsemicolon _
      exact ⟨hplain, .hold c rfl (fun _ => by simp [cuts, hbrace, hbrace', hsemicolon]) rfl rfl⟩

/-- A step is described by what it does to the segments, and begins no comment. -/
theorem reads_step (hs : s.mode.plain = true) (hc : c ≠ '/') :
    (s.step c).mode.plain = true ∧ Reads s c (s.step c) := by
  cases hmode : s.mode with
  | code =>
    rw [step, hmode]
    exact reads_stepCode hmode hc
  | literal mark =>
    have hnot : s.bare = true → c ∉ cuts := by simp [bare, hmode]
    rw [step, hmode]
    dsimp only
    split
    · rename_i hnewline
      exact ⟨congrArg Mode.plain (mode_flush _),
        .stop (.inl hnewline) (buffer_flush _) (done_flush_congr rfl rfl rfl rfl)⟩
    split
    · exact ⟨rfl, .hold c rfl hnot rfl rfl⟩
    split
    · exact ⟨rfl, .hold c rfl hnot rfl rfl⟩
    · exact ⟨rfl, .hold c rfl hnot rfl rfl⟩
  | escape mark =>
    rw [step, hmode]
    exact ⟨rfl, .hold c rfl (by simp [bare, hmode]) rfl rfl⟩
  | slash | lineComment | blockComment =>
    rw [hmode] at hs
    cases hs

/-! ## What is read -/

/-- The characters of the segments that are read and of the one being read, in order. -/
def gathered (s : Cutter) : Text :=
  Segment.gathered s.done.reverse ++ Text.withoutBlanks s.buffer.reverse

/-- The text without the semicolons that stand outside literals and open `<` and `(`. -/
def withoutSemicolons (s : Cutter) : Text → Text
  | [] => []
  | c :: t => (if s.bare && c = ';' then [] else [c]) ++ (s.step c).withoutSemicolons t

theorem gathered_of_empty (h : s.buffer = []) : s.gathered = Segment.gathered s.done.reverse := by
  rw [gathered, h, List.reverse_nil, Text.withoutBlanks_of_blank rfl, List.append_nil]

theorem gathered_push {d : Char} (hbuffer : r.buffer = d :: s.buffer) (hdone : r.done = s.done) :
    r.gathered = s.gathered ++ Text.withoutBlanks [d] := by
  rw [gathered, hbuffer, hdone, List.reverse_cons, Text.withoutBlanks_append, ← List.append_assoc,
    gathered]

/-- The end of a segment loses blanks only. -/
theorem gathered_flush (s : Cutter) : s.flush.gathered = s.gathered := by
  cases hblank : Text.blank s.buffer with
  | true =>
    have hreverse : Text.blank s.buffer.reverse = true := by simpa [Text.blank] using hblank
    rw [flush_of_blank hblank, gathered_of_empty rfl, gathered,
      Text.withoutBlanks_of_blank hreverse, List.append_nil]
  | false =>
    rw [flush_of_held hblank, gathered_of_empty rfl, gathered, List.reverse_cons,
      Segment.gathered_append, Segment.gathered_singleton, Text.withoutBlanks_trim]

/-- The end of a segment adds a solid one at most. -/
theorem exists_done_flush (s : Cutter) :
    ∃ added, s.flush.done = added ++ s.done ∧ ∀ segment ∈ added, segment.text.Solid := by
  cases hblank : Text.blank s.buffer with
  | true =>
    rw [flush_of_blank hblank]
    exact ⟨[], rfl, nofun⟩
  | false =>
    have hreverse : Text.blank s.buffer.reverse = false := by simpa [Text.blank] using hblank
    rw [flush_of_held hblank]
    exact ⟨[_], rfl, List.forall_mem_singleton.2 (Text.solid_trim hreverse)⟩

namespace Reads

/-- A character is found again in what is read, if it is not blank and no semicolon that cuts. -/
theorem gathered (h : Reads s c r) :
    r.gathered =
      s.gathered ++ Text.withoutBlanks (if s.bare && c = ';' then [] else [c]) := by
  cases h with
  | hold d hd hcuts hbuffer hdone =>
    have hkept : (s.bare && c = ';') = false := by
      rw [Bool.and_eq_false_imp]
      intro hbare
      have hc := hcuts hbare
      simp only [cuts, List.mem_cons, not_or] at hc
      simp [hc]
    rw [hkept, if_neg Bool.false_ne_true, gathered_push hbuffer hdone, hd]
  | stop hc hbuffer hdone =>
    have hnone : Text.withoutBlanks (if s.bare && c = ';' then [] else [c]) = [] := by
      rcases hc with rfl | ⟨hbare, rfl⟩
      · cases s.bare <;> rfl
      · rw [hbare]
        rfl
    rw [hnone, List.append_nil, ← gathered_flush s, gathered_of_empty hbuffer, hdone,
      gathered_of_empty s.buffer_flush]
  | opening hbare hc hbuffer hdone =>
    subst hc
    set held : Cutter := { s with buffer := '\x7b' :: s.buffer }
    have hpush : held.gathered = s.gathered ++ Text.withoutBlanks ['\x7b'] := gathered_push rfl rfl
    rw [gathered_of_empty hbuffer, hdone, ← gathered_of_empty held.buffer_flush, gathered_flush,
      hpush, hbare]
    rfl
  | closing hbare hc hbuffer hdone =>
    subst hc
    rw [gathered_of_empty hbuffer, hdone, List.reverse_cons, Segment.gathered_append,
      ← gathered_of_empty s.buffer_flush, gathered_flush, Segment.gathered_singleton, hbare]
    rfl

/-- An opening brace outside literals and brackets ends its segment. -/
theorem done_opening (h : Reads s '\x7b' r) (hbare : s.bare = true) :
    r.buffer = [] ∧ ∃ segment : Segment, r.done = segment :: s.done ∧
      Text.endsWith '\x7b' segment.text = true := by
  cases h with
  | hold d hd hcuts hbuffer hdone => exact absurd (by decide) (hcuts hbare)
  | stop hc hbuffer hdone =>
    rcases hc with hc | ⟨-, hc⟩
    · exact absurd hc (by decide)
    · exact absurd hc (by decide)
  | opening _ hc hbuffer hdone =>
    have hheld : Text.blank ('\x7b' :: s.buffer) = false := rfl
    rw [flush_of_held hheld] at hdone
    exact ⟨hbuffer, _, hdone, Text.endsWith_trim (by decide) (by simp [Text.endsWith])⟩
  | closing _ hc hbuffer hdone => exact absurd hc (by decide)

/-- A closing brace outside literals and brackets is a segment of its own. -/
theorem done_closing (h : Reads s '\x7d' r) (hbare : s.bare = true) :
    r.buffer = [] ∧ r.done = ⟨['\x7d'], s.line, none⟩ :: s.flush.done := by
  cases h with
  | hold d hd hcuts hbuffer hdone => exact absurd (by decide) (hcuts hbare)
  | stop hc hbuffer hdone =>
    rcases hc with hc | ⟨-, hc⟩
    · exact absurd hc (by decide)
    · exact absurd hc (by decide)
  | opening _ hc hbuffer hdone => exact absurd hc (by decide)
  | closing _ hc hbuffer hdone => exact ⟨hbuffer, hdone⟩

/-- The segments that are read stay, and those that a character adds are solid. -/
theorem exists_done (h : Reads s c r) :
    ∃ added, r.done = added ++ s.done ∧ ∀ segment ∈ added, segment.text.Solid := by
  cases h with
  | hold d hd hcuts hbuffer hdone => exact ⟨[], hdone, nofun⟩
  | stop hc hbuffer hdone =>
    rw [hdone]
    exact s.exists_done_flush
  | opening hbare hc hbuffer hdone =>
    rw [hdone]
    exact exists_done_flush { s with buffer := '\x7b' :: s.buffer }
  | closing hbare hc hbuffer hdone =>
    obtain ⟨added, hflush, hadded⟩ := s.exists_done_flush
    have hbrace : Text.Solid ['\x7d'] := Text.solid_of_trim (by decide) (by decide)
    rw [hdone, hflush]
    exact ⟨_ :: added, rfl, List.forall_mem_cons.2 ⟨hbrace, hadded⟩⟩

end Reads

/-! ## A text -/

theorem plain_start : start.mode.plain = true := rfl

theorem plain_run (hs : s.mode.plain = true) (ht : '/' ∉ t) : (s.run t).mode.plain = true := by
  induction t generalizing s with
  | nil => exact hs
  | cons c t ih =>
    obtain ⟨hc, ht⟩ := List.ne_and_not_mem_of_not_mem_cons ht
    exact ih (reads_step hs hc.symm).1 ht

theorem reads_run_concat (hs : s.mode.plain = true) (ht : '/' ∉ t ++ [c]) :
    Reads (s.run t) c (s.run (t ++ [c])) := by
  simp only [List.mem_append, List.mem_singleton, not_or] at ht
  rw [run_append]
  exact (reads_step (plain_run hs ht.1) (Ne.symm ht.2)).2

/-- The characters of a text are found again in what is read. -/
theorem gathered_run (hs : s.mode.plain = true) (ht : '/' ∉ t) :
    (s.run t).gathered = s.gathered ++ Text.withoutBlanks (s.withoutSemicolons t) := by
  induction t generalizing s with
  | nil => exact (List.append_nil _).symm
  | cons c t ih =>
    obtain ⟨hc, ht⟩ := List.ne_and_not_mem_of_not_mem_cons ht
    obtain ⟨hplain, hreads⟩ := reads_step hs hc.symm
    rw [run_cons, ih hplain ht, hreads.gathered, withoutSemicolons, Text.withoutBlanks_append,
      List.append_assoc]

theorem exists_done_run (hs : s.mode.plain = true) (ht : '/' ∉ t) :
    ∃ added, (s.run t).done = added ++ s.done ∧ ∀ segment ∈ added, segment.text.Solid := by
  induction t generalizing s with
  | nil => exact ⟨[], rfl, nofun⟩
  | cons c t ih =>
    obtain ⟨hc, ht⟩ := List.ne_and_not_mem_of_not_mem_cons ht
    obtain ⟨hplain, hreads⟩ := reads_step hs hc.symm
    obtain ⟨now, hnow, hsolid⟩ := hreads.exists_done
    obtain ⟨later, hlater, hsolid'⟩ := ih hplain ht
    refine ⟨later ++ now, ?_, List.forall_mem_append.2 ⟨hsolid', hsolid⟩⟩
    rw [run_cons, hlater, hnow, List.append_assoc]

/-- The end of a text is the end of a line, outside comments. -/
theorem finish_of_plain (hs : s.mode.plain = true) : s.finish = s.flush.done.reverse := by
  rw [finish]
  cases hmode : s.mode with
  | code | literal | escape => rfl
  | slash | lineComment | blockComment =>
    rw [hmode] at hs
    cases hs

end Cutter

namespace Segment

open Text

variable {t before after : Text}

theorem cut_eq (h : '/' ∉ t) : cut t = (Cutter.start.run t).flush.done.reverse :=
  Cutter.finish_of_plain (Cutter.plain_run Cutter.plain_start h)

/-- The segments that are read of the front of a text stay, and the others are solid. -/
theorem exists_cut_append (hbefore : '/' ∉ before) (hafter : '/' ∉ after) :
    ∃ rest, cut (before ++ after) = (Cutter.start.run before).done.reverse ++ rest ∧
      ∀ s ∈ rest, s.text.Solid := by
  obtain ⟨added, hadded, hsolid⟩ :=
    Cutter.exists_done_run (Cutter.plain_run Cutter.plain_start hbefore) hafter
  obtain ⟨last, hlast, hsolid'⟩ := (Cutter.start.run (before ++ after)).exists_done_flush
  refine ⟨(last ++ added).reverse, ?_, fun s hs => ?_⟩
  · rw [cut_eq (List.not_mem_append hbefore hafter), hlast, Cutter.run_append, hadded,
      ← List.append_assoc, List.reverse_append]
  · exact List.forall_mem_append.2 ⟨hsolid', hsolid⟩ s (List.mem_reverse.1 hs)

/-- The characters of a part of a text are found again in the segments that it completes. -/
theorem gathered_done (h : '/' ∉ t) (hbuffer : (Cutter.start.run t).buffer = []) :
    gathered (Cutter.start.run t).done.reverse =
      withoutBlanks (Cutter.start.withoutSemicolons t) := by
  rw [← Cutter.gathered_of_empty hbuffer, Cutter.gathered_run Cutter.plain_start h]
  rfl

theorem gathered_flush_run (h : '/' ∉ t) :
    gathered (Cutter.start.run t).flush.done.reverse =
      withoutBlanks (Cutter.start.withoutSemicolons t) := by
  rw [← Cutter.gathered_of_empty (Cutter.buffer_flush _), Cutter.gathered_flush,
    Cutter.gathered_run Cutter.plain_start h]
  rfl

/-- The segment that an opening brace ends. -/
theorem cut_opening (hbefore : '/' ∉ before) (hafter : '/' ∉ after)
    (hbare : (Cutter.start.run before).bare = true) :
    ∃ first s rest, cut (before ++ '\x7b' :: after) = first ++ s :: rest ∧
      endsWith '\x7b' s.text = true ∧
      gathered (first ++ [s]) =
        withoutBlanks (Cutter.start.withoutSemicolons (before ++ ['\x7b'])) := by
  have hread : '/' ∉ before ++ ['\x7b'] := List.not_mem_append hbefore (by decide)
  have hreads := Cutter.reads_run_concat Cutter.plain_start hread
  obtain ⟨hbuffer, s, hdone, hends⟩ := hreads.done_opening hbare
  obtain ⟨rest, hcut, -⟩ := exists_cut_append hread hafter
  have hgathered := gathered_done hread hbuffer
  rw [hdone, List.reverse_cons] at hcut hgathered
  rw [List.append_assoc, List.append_assoc] at hcut
  exact ⟨_, s, rest, hcut, hends, hgathered⟩

/-- The segment that a closing brace is. -/
theorem cut_closing (hbefore : '/' ∉ before) (hafter : '/' ∉ after)
    (hbare : (Cutter.start.run before).bare = true) :
    ∃ first s rest, cut (before ++ '\x7d' :: after) = first ++ s :: rest ∧ s.text = ['\x7d'] ∧
      gathered first = withoutBlanks (Cutter.start.withoutSemicolons before) := by
  have hread : '/' ∉ before ++ ['\x7d'] := List.not_mem_append hbefore (by decide)
  have hreads := Cutter.reads_run_concat Cutter.plain_start hread
  obtain ⟨-, hdone⟩ := hreads.done_closing hbare
  obtain ⟨rest, hcut, -⟩ := exists_cut_append hread hafter
  rw [hdone, List.reverse_cons, List.append_assoc, List.append_assoc] at hcut
  exact ⟨_, _, rest, hcut, rfl, gathered_flush_run hbefore⟩

/-- A text without slashes is found again in its segments, all but the blanks and the semicolons
that stand outside literals and open `<` and `(`. The segments are trimmed and not empty, and a
brace outside literals and brackets ends its segment or is one. -/
theorem cut_keeps (h : '/' ∉ t) :
    gathered (cut t) = withoutBlanks (Cutter.start.withoutSemicolons t) ∧
    (∀ s ∈ cut t, s.text ≠ [] ∧ trim s.text = s.text) ∧
    (∀ before after, t = before ++ '\x7b' :: after → (Cutter.start.run before).bare = true →
      ∃ first s rest, cut t = first ++ s :: rest ∧ endsWith '\x7b' s.text = true ∧
        gathered (first ++ [s]) =
          withoutBlanks (Cutter.start.withoutSemicolons (before ++ ['\x7b']))) ∧
    ∀ before after, t = before ++ '\x7d' :: after → (Cutter.start.run before).bare = true →
      ∃ first s rest, cut t = first ++ s :: rest ∧ s.text = ['\x7d'] ∧
        gathered first = withoutBlanks (Cutter.start.withoutSemicolons before) := by
  refine ⟨?_, ?_, ?_, ?_⟩
  · rw [cut_eq h, gathered_flush_run h]
  · obtain ⟨rest, hcut, hsolid⟩ := exists_cut_append List.not_mem_nil h
    have hrest : cut t = rest := hcut
    rw [hrest]
    exact fun s hs => ⟨(hsolid s hs).ne_nil, (hsolid s hs).trim⟩
  · rintro before after rfl hbare
    simp only [List.mem_append, List.mem_cons, not_or] at h
    exact cut_opening h.1 h.2.2 hbare
  · rintro before after rfl hbare
    simp only [List.mem_append, List.mem_cons, not_or] at h
    exact cut_closing h.1 h.2.2 hbare

/-- The head of an interface with open brackets, up to its brace. -/
def brokenHead : Text := "type A<\x7b;\n> ".toList

/-- A literal that is never closed, and one with a brace and a semicolon. -/
def brokenBody : Text := " x: \"a;\\\";\n y: 'b\x7d;'; ".toList

def brokenText : Text := brokenHead ++ '\x7b' :: (brokenBody ++ '\x7d' :: " z".toList)

/-- One semicolon of five is read outside literals and brackets. -/
theorem cut_keeps_brokenText :
    gathered (cut brokenText) = "typeA<\x7b;>\x7bx:\"a;\\\";y:'b\x7d;'\x7dz".toList ∧
    (∀ s ∈ cut brokenText, s.text ≠ [] ∧ trim s.text = s.text) ∧
    (∃ first s rest, cut brokenText = first ++ s :: rest ∧ endsWith '\x7b' s.text = true ∧
      gathered (first ++ [s]) = "typeA<\x7b;>\x7b".toList) ∧
    ∃ first s rest, cut brokenText = first ++ s :: rest ∧ s.text = ['\x7d'] ∧
      gathered first = "typeA<\x7b;>\x7bx:\"a;\\\";y:'b\x7d;'".toList := by
  have hslash : '/' ∉ brokenText := by decide +kernel
  obtain ⟨hall, htrim, hopen, hclose⟩ := cut_keeps hslash
  refine ⟨hall.trans (by decide +kernel), htrim, ?_, ?_⟩
  · obtain ⟨first, s, rest, hcut, hends, hgathered⟩ := hopen brokenHead _ rfl (by decide +kernel)
    exact ⟨first, s, rest, hcut, hends, hgathered.trans (by decide +kernel)⟩
  · obtain ⟨first, s, rest, hcut, htext, hgathered⟩ :=
      hclose (brokenHead ++ '\x7b' :: brokenBody) " z".toList
        (by rw [brokenText, List.append_assoc, List.cons_append]) (by decide +kernel)
    exact ⟨first, s, rest, hcut, htext, hgathered.trans (by decide +kernel)⟩

end Segment

end InterfaceForms

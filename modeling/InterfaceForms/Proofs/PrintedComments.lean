import InterfaceForms.Proofs.PrintedLines

/-!
# Printed comments

A comment at the end of a line joins the segment of the line, whether or not a semicolon has ended
it. A block comment on a line of its own is kept for the next segment.

* `Cutter.Holding.comment`, `Cutter.Ready.comment`: a comment without and with a semicolon before.
* `Cutter.Ready.blockComment`: a block comment.
-/

namespace InterfaceForms

namespace Cutter

/-! ## Comments at the end of a line -/

theorem run_lineComment {s : Cutter} {t read : Text} (hmode : s.mode = .lineComment read)
    (ht : '\n' ∉ t) : s.run t = { s with mode := .lineComment (t.reverse ++ read) } := by
  induction t generalizing s read with
  | nil =>
    rw [run_nil, List.reverse_nil, List.nil_append, ← hmode]
  | cons c t ih =>
    have hc : c ≠ '\n' := by
      rintro rfl
      exact ht List.mem_cons_self
    have hstep : s.step c = { s with mode := .lineComment (c :: read) } := by
      simp [step, hmode, hc]
    rw [run_cons, hstep, ih rfl fun hmem => ht (List.mem_cons_of_mem c hmem)]
    simp

/-- What a comment at the end of a line adds to the segment before it. -/
def trailer (comment : Text) : Text := " // ".toList ++ comment

/-- Two slashes open a comment. -/
theorem run_slashes {s : Cutter} (hmode : s.mode = .code) {read : Text} (hread : '\n' ∉ read) :
    s.run ('/' :: '/' :: read) = { s with mode := .lineComment read.reverse, last := '/' } := by
  have hquote : isQuoteMark '/' = false := by decide
  have hslash : s.step '/' = { s with mode := .slash } := by
    simp [step, hmode, stepCode, hquote]
  have hopen : ({ s with mode := .slash } : Cutter).step '/' =
      { s with mode := .lineComment [], last := '/' } := rfl
  rw [run_cons, hslash, run_cons, hopen, run_lineComment rfl hread, List.append_nil]

theorem run_comment {s : Cutter} (hmode : s.mode = .code) {comment : Text}
    (hline : '\n' ∉ comment) :
    s.run ("// ".toList ++ comment ++ ['\n']) =
      (({ s with mode := .lineComment (' ' :: comment).reverse, last := '/' } :
        Cutter).endLineComment (' ' :: comment).reverse).stepCode '\n' := by
  have htext : "// ".toList ++ comment ++ ['\n'] = ('/' :: '/' :: ' ' :: comment) ++ ['\n'] := rfl
  rw [htext, run_append, run_slashes hmode (by simpa using hline)]
  rfl

/-- The words of a printed comment are found again. -/
theorem trim_comment {comment : Text} (h : IsLine comment) :
    Text.trim ((' ' :: comment).reverse.reverse.dropWhile (· = '/')) = comment := by
  simpa using h.solid.trim_space

theorem solid_append_trailer {t comment : Text} (ht : Text.Solid t) (h : IsLine comment)
    (mid : Text) : Text.Solid (t ++ (mid ++ trailer comment)) := by
  have hsolid := ht.append h.solid (mid ++ " // ".toList)
  simpa only [trailer, List.append_assoc] using hsolid

/-- A comment joins the code that is held before it. -/
theorem Holding.comment {s : Cutter} {text : Text} {doc : Option Text}
    {read : List (Text × Option Text)} (h : Holding s text doc read) (hsolid : Text.Solid text)
    {comment : Text} (hcomment : IsLine comment) :
    Ready (s.run (" // ".toList ++ comment ++ ['\n'])) none
      ((text ++ ([' '] ++ trailer comment), doc) :: read) := by
  have hspace : Holding (s.step ' ') (text ++ [' ']) doc read := by
    rw [step_of_isPlain h.mode h.held (by decide)]
    exact h.hold [' '] ' '
  have htext : " // ".toList ++ comment ++ ['\n'] = ' ' :: ("// ".toList ++ comment ++ ['\n']) :=
    rfl
  rw [htext, run_cons, run_comment hspace.mode hcomment.no_newline]
  generalize s.step ' ' = r at hspace
  have hend : ({ r with mode := .lineComment (' ' :: comment).reverse, last := '/' } :
      Cutter).endLineComment (' ' :: comment).reverse =
      { r with buffer := (trailer comment).reverse ++ r.buffer, mode := .code, last := '/' } := by
    simp only [endLineComment, trim_comment hcomment, hcomment.ne_nil, Cutter.nested,
      hspace.angles, hspace.parens, hspace.held, trailer]
    rfl
  have hheld : Holding { r with mode := .code, last := '/' } (text ++ [' ']) doc read :=
    ⟨rfl, hspace.buffer, hspace.held, hspace.line, hspace.angles, hspace.parens, hspace.doc,
      hspace.done⟩
  have hflush := hheld.flush (e := trailer comment)
    (by simpa using solid_append_trailer hsolid hcomment [' '])
  rw [List.append_assoc] at hflush
  rw [hend, stepCode_newline (by simp [Cutter.nested, hspace.angles, hspace.parens])]
  exact hflush.move _ _

/-- A comment behind a semicolon joins the segment that the semicolon ended. -/
theorem Ready.comment {s : Cutter} {text : Text} {doc : Option Text} {seg : Segment}
    {done : List Segment} {read : List (Text × Option Text)}
    (h : Ready s none ((text, doc) :: read)) (hdone : s.done = seg :: done)
    (hline : seg.line = s.line) (htakes : seg.takesComment = true) {comment : Text}
    (hcomment : IsLine comment) :
    Ready (s.run (" // ".toList ++ comment ++ ['\n'])) none
      ((text ++ trailer comment, doc) :: read) := by
  have htext : " // ".toList ++ comment ++ ['\n'] = ' ' :: ("// ".toList ++ comment ++ ['\n']) :=
    rfl
  have hspace := h.space
  have hkept : (s.step ' ').done = s.done ∧ (s.step ' ').line = s.line := by
    rw [step_of_code h.mode (by decide) (by decide)]
    exact ⟨rfl, rfl⟩
  rw [← hkept.1] at hdone
  rw [← hkept.2] at hline
  rw [htext, run_cons, run_comment hspace.mode hcomment.no_newline]
  generalize s.step ' ' = r at hspace hdone hline
  have hcontent := hspace.done
  rw [hdone, List.map_cons, List.cons.injEq] at hcontent
  obtain ⟨hseg, hread⟩ := hcontent
  have hjoined : Ready { r with
      mode := .code
      last := '/'
      done := { seg with text := seg.text ++ trailer comment } :: done } none
      ((text ++ trailer comment, doc) :: read) := by
    refine ⟨rfl, hspace.buffer, hspace.angles, hspace.parens, hspace.doc, ?_⟩
    rw [List.map_cons, hread]
    simp only [Segment.content, Prod.mk.injEq] at hseg ⊢
    rw [hseg.1, hseg.2]
  have hend : ({ r with mode := .lineComment (' ' :: comment).reverse, last := '/' } :
      Cutter).endLineComment (' ' :: comment).reverse =
      { r with
        mode := .code
        last := '/'
        done := { seg with text := seg.text ++ trailer comment } :: done } := by
    simp only [endLineComment, trim_comment hcomment, hcomment.ne_nil, Cutter.nested,
      hspace.angles, hspace.parens, hspace.buffer, hdone, hline, htakes, trailer]
    rfl
  rw [hend, stepCode_newline hjoined.nested]
  exact hjoined.flush.move _ _

theorem run_blockComment {s : Cutter} {t read : Text} (hmode : s.mode = .blockComment read)
    (hline : '\n' ∉ t) (hopen : ¬ ['*', '/'] <:+: read.reverse ++ t) :
    s.run t = { s with mode := .blockComment (t.reverse ++ read) } := by
  induction t generalizing s read with
  | nil =>
    rw [run_nil, List.reverse_nil, List.nil_append, ← hmode]
  | cons c t ih =>
    have hc : c ≠ '\n' := by
      rintro rfl
      exact hline List.mem_cons_self
    have hclose : (c = '/' && read.head? = some '*') = false := by
      rw [Bool.eq_false_iff]
      intro h
      simp only [Bool.and_eq_true, decide_eq_true_eq] at h
      obtain ⟨rfl, hhead⟩ := h
      obtain ⟨u, rfl⟩ := List.head?_eq_some_iff.1 hhead
      exact hopen ⟨u.reverse, t, by simp⟩
    have hstep : s.step c = { s with mode := .blockComment (c :: read) } := by
      simp [step, hmode, hclose, hc]
    have hopen' : ¬ ['*', '/'] <:+: (c :: read).reverse ++ t := by
      simpa using hopen
    rw [run_cons, hstep, ih rfl (fun hmem => hline (List.mem_cons_of_mem c hmem)) hopen']
    simp

theorem not_infix_concat {t : Text} {c : Char} (h : ¬ ['*', '/'] <:+: t) (hc : c ≠ '/') :
    ¬ ['*', '/'] <:+: t ++ [c] := by
  rw [List.infix_concat_iff]
  rintro (hsuffix | hinfix)
  · rcases List.suffix_concat_iff.1 hsuffix with hnil | ⟨u, heq, _⟩
    · cases hnil
    · have hlast := congrArg List.getLast? heq
      simp only [List.getLast?_concat] at hlast
      exact hc (Option.some.inj hlast).symm
  · exact h hinfix

theorem splitLines_of_line {t : Text} (h : '\n' ∉ t) : Text.splitLines t = [t] := by
  induction t with
  | nil => rfl
  | cons c t ih =>
    have hc : c ≠ '\n' := by
      rintro rfl
      exact h List.mem_cons_self
    have htail := ih fun hmem => h (List.mem_cons_of_mem c hmem)
    rw [Text.splitLines, htail]
    · rfl
    · exact hc

/-- The words of a block comment of one line. -/
theorem blockCommentText_of_line {comment : Text} (h : IsLine comment) :
    blockCommentText ("* ".toList ++ comment ++ [' ']) = comment := by
  have hline : '\n' ∉ "* ".toList ++ comment ++ [' '] := by
    simp [h.no_newline]
  have hstar : Text.Solid ['*'] := .singleton (by decide)
  have hwhole : Text.Solid ("* ".toList ++ comment) := hstar.append h.solid [' ']
  have htrim : Text.trim ("* ".toList ++ comment ++ [' ']) = "* ".toList ++ comment :=
    hwhole.trim_between (b := []) rfl (by decide)
  have hdrop : ("* ".toList ++ comment).dropWhile (· = '*') = ' ' :: comment := rfl
  simp only [blockCommentText, splitLines_of_line hline, List.map_cons, List.map_nil, htrim, hdrop,
    h.solid.trim_space]
  simp [h.ne_nil, Text.joinWith, List.intercalate]

/-- A block comment on a line of its own is kept for the next segment. -/
theorem Ready.blockComment {s : Cutter} {read : List (Text × Option Text)}
    (h : Ready s none read) {comment : Text} (hcomment : IsLine comment)
    (hopen : ¬ ['*', '/'] <:+: comment) :
    Ready (s.run ("/** ".toList ++ comment ++ " */\n".toList)) (some comment) read := by
  have hquote : isQuoteMark '/' = false := by decide
  have htext : "/** ".toList ++ comment ++ " */\n".toList =
      '/' :: '*' :: (("* ".toList ++ comment ++ " *".toList) ++ ['/', '\n']) := by
    simp
  have hslash : s.step '/' = { s with mode := .slash } := by
    simp [step, h.mode, stepCode, hquote]
  have hstar : ({ s with mode := .slash } : Cutter).step '*' =
      { s with mode := .blockComment [], last := '/' } := rfl
  have hline : '\n' ∉ "* ".toList ++ comment ++ " *".toList := by
    simp [hcomment.no_newline]
  -- The blanks around the comment keep its end and the asterisks apart.
  have hinfix : ¬ ['*', '/'] <:+: "* ".toList ++ comment ++ " *".toList := by
    have hinner := not_infix_concat (not_infix_concat hopen (c := ' ') (by decide)) (c := '*')
      (by decide)
    simpa [List.infix_cons_iff] using hinner
  have hread : ("* ".toList ++ comment ++ " *".toList).reverse =
      '*' :: ("* ".toList ++ comment ++ [' ']).reverse := by
    simp
  have hend : ({ s with
      mode := .blockComment ('*' :: ("* ".toList ++ comment ++ [' ']).reverse)
      last := '/' } : Cutter).step '/' =
      { s with mode := .code, last := '/', doc := some comment } := by
    simp only [step, List.head?_cons, decide_true, Bool.and_self, if_true, List.tail_cons,
      List.reverse_reverse, endBlockComment, blockCommentText_of_line hcomment, hcomment.ne_nil,
      if_false]
  have hready : Ready { s with mode := .code, last := '/', doc := some comment } (some comment)
      read :=
    ⟨rfl, h.buffer, h.angles, h.parens, rfl, h.done⟩
  rw [htext, run_cons, hslash, run_cons, hstar, run_append, run_blockComment rfl hline ?_,
    List.append_nil, hread, run_cons, hend]
  · exact hready.newline
  · exact hinfix

end Cutter

end InterfaceForms

import InterfaceForms.Proofs.EarlierLines
import InterfaceForms.Proofs.PrintedTypes

/-!
# Printed lines

The pass that cuts a text into segments, on the lines of printed declarations. Between two lines
nothing is held back; inside a line the code read so far is held until the line ends.

* `Cutter.Holds.of_code`: balanced code is held as it is.
* `Cutter.Ready`, `Cutter.Holding`: the states between lines and inside a line.
-/

namespace InterfaceForms

namespace Cutter

/-! ## Code -/

/-- The pass after more characters of the segment being read. -/
def hold (s : Cutter) (t : Text) (last : Char) : Cutter :=
  { s with buffer := t.reverse ++ s.buffer, last := last }

/-- The pass with other numbers of open brackets. -/
def nest (s : Cutter) (angles parens : Nat) : Cutter :=
  { s with angles := angles, parens := parens }

theorem hold_hold (s : Cutter) (t u : Text) (last last' : Char) :
    (s.hold t last).hold u last' = s.hold (t ++ u) last' := by
  simp [hold]

theorem blank_hold {s : Cutter} (h : Text.blank s.buffer = false) (t : Text) (last : Char) :
    Text.blank (s.hold t last).buffer = false := by
  simp only [hold, Text.blank, List.all_append, Bool.and_eq_false_iff] at h ⊢
  exact .inr h

theorem step_of_code {s : Cutter} {c : Char} (hmode : s.mode = .code)
    (hquote : isQuoteMark c = false) (hc : c ∉ ['/', '\n', '\x7b', '\x7d', ';']) :
    s.step c = s.addCode c := by
  simp only [List.mem_cons, List.not_mem_nil, or_false, not_or] at hc
  obtain ⟨hslash, hline, hopen, hclose, hsemi⟩ := hc
  simp [step, hmode, stepCode, hquote, hslash, hline, hopen, hclose, hsemi]

theorem addCode_of_held {s : Cutter} (hheld : Text.blank s.buffer = false) (c : Char) :
    s.addCode c = (s.hold [c] c).nest (s.anglesAfter c) (s.parensAfter c) := by
  simp [addCode, add, hheld, hold, nest]

theorem step_of_held {s : Cutter} {c : Char} (hmode : s.mode = .code)
    (hheld : Text.blank s.buffer = false) (hquote : isQuoteMark c = false)
    (hc : c ∉ ['/', '\n', '\x7b', '\x7d', ';']) :
    s.step c = (s.hold [c] c).nest (s.anglesAfter c) (s.parensAfter c) := by
  rw [step_of_code hmode hquote hc, addCode_of_held hheld]

theorem special_of_isPlain {c : Char} (h : isPlain c = true) :
    c ∉ ['/', '\n', '\x7b', '\x7d', ';'] :=
  not_mem_of_class h (by decide)

theorem anglesAfter_of_isPlain {s : Cutter} {c : Char} (h : isPlain c = true) :
    s.anglesAfter c = s.angles := by
  have hopen := ne_of_isPlain h (x := '<') (by decide)
  have hclose := ne_of_isPlain h (x := '>') (by decide)
  simp [anglesAfter, hopen, hclose]

theorem parensAfter_of_isPlain {s : Cutter} {c : Char} (h : isPlain c = true) :
    s.parensAfter c = s.parens := by
  have hopen := ne_of_isPlain h (x := '(') (by decide)
  have hclose := ne_of_isPlain h (x := ')') (by decide)
  simp [parensAfter, hopen, hclose]

theorem step_of_isPlain {s : Cutter} {c : Char} (hmode : s.mode = .code)
    (hheld : Text.blank s.buffer = false) (hc : isPlain c = true) :
    s.step c = s.hold [c] c := by
  rw [step_of_held hmode hheld (not_isQuoteMark_of_isPlain hc) (special_of_isPlain hc),
    anglesAfter_of_isPlain hc, parensAfter_of_isPlain hc]
  rfl

/-- The rest of a literal is held, and its mark closes it. -/
theorem run_openLiteral {s : Cutter} {mark : Char} (hmark : isQuoteMark mark = true)
    (hmode : s.mode = .literal mark) {v : Text} (hv : ∀ c ∈ v, c ≠ mark ∧ c ≠ '\\' ∧ c ≠ '\n') :
    s.run (v ++ [mark]) = { s.hold (v ++ [mark]) mark with mode := .code } := by
  induction v generalizing s with
  | nil =>
    have hline : mark ≠ '\n' := by
      rintro rfl
      exact absurd hmark (by decide)
    have hback : mark ≠ '\\' := by
      rintro rfl
      exact absurd hmark (by decide)
    simp [step, hmode, hold, hline, hback]
  | cons c v ih =>
    obtain ⟨⟨hquote, hback, hline⟩, hv⟩ := List.forall_mem_cons.1 hv
    have hstep : s.step c = { s with buffer := c :: s.buffer } := by
      simp [step, hmode, hquote, hback, hline]
    rw [List.cons_append, run_cons, hstep, ih (s := { s with buffer := c :: s.buffer }) hmode hv]
    simp [hold]

theorem run_literal {s : Cutter} (hmode : s.mode = .code) (hheld : Text.blank s.buffer = false)
    {mark : Char} (hmark : isQuoteMark mark = true) {v : Text}
    (hv : ∀ c ∈ v, c ≠ mark ∧ c ≠ '\\' ∧ c ≠ '\n') :
    s.run (mark :: v ++ [mark]) = s.hold (mark :: v ++ [mark]) mark := by
  have hstep : s.step mark = { s.hold [mark] mark with mode := .literal mark } := by
    simp [step, hmode, stepCode, hmark, add, hheld, hold]
  rw [List.cons_append, run_cons, hstep, run_openLiteral hmark rfl hv]
  simp [hold, hmode]

/-- The pass holds `t` as it is after code that is already held: it opens and closes no bracket,
and it does not end in an equals sign, which would keep an angle bracket after it from closing. -/
def Holds (t : Text) : Prop :=
  ∀ s : Cutter, s.mode = .code → Text.blank s.buffer = false →
    ∃ last, (s.last ≠ '=' → last ≠ '=') ∧ s.run t = s.hold t last

namespace Holds

variable {t u : Text}

theorem nil : Holds [] := fun s _ _ => ⟨s.last, id, rfl⟩

theorem append (ht : Holds t) (hu : Holds u) : Holds (t ++ u) := by
  intro s hmode hheld
  obtain ⟨last, hlast, hrun⟩ := ht s hmode hheld
  obtain ⟨last', hlast', hrun'⟩ := hu (s.hold t last) hmode (blank_hold hheld t last)
  refine ⟨last', fun h => hlast' (hlast h), ?_⟩
  rw [run_append, hrun, hrun', hold_hold]

theorem plain {c : Char} (hc : isPlain c = true) : Holds [c] := by
  intro s hmode hheld
  exact ⟨c, fun _ => ne_of_isPlain hc (by decide), step_of_isPlain hmode hheld hc⟩

theorem literal {mark : Char} (hmark : isQuoteMark mark = true) {v : Text}
    (hv : ∀ c ∈ v, c ≠ mark ∧ c ≠ '\\' ∧ c ≠ '\n') : Holds (mark :: v ++ [mark]) := by
  intro s hmode hheld
  have hquote : mark ≠ '=' := by
    rintro rfl
    exact absurd hmark (by decide)
  exact ⟨mark, fun _ => hquote, run_literal hmode hheld hmark hv⟩

theorem quoted {v : Text} (hv : IsLiteral v) : Holds (TypeExpr.quoted v) := by
  refine literal (by decide) fun c hc => ?_
  obtain ⟨hquote, hback, hline, -, -⟩ := hv.ne hc
  exact ⟨hquote, hback, hline⟩

theorem parenthesized (hu : Holds u) : Holds (TypeExpr.parenthesized u) := by
  intro s hmode hheld
  have hopen : s.step '(' = (s.hold ['('] '(').nest s.angles (s.parens + 1) :=
    step_of_held hmode hheld (by decide) (by decide)
  have hheld' := blank_hold hheld ['('] '('
  obtain ⟨last, -, hin⟩ := hu ((s.hold ['('] '(').nest s.angles (s.parens + 1)) hmode hheld'
  have hclose : (((s.hold ['('] '(').nest s.angles (s.parens + 1)).hold u last).step ')' =
      s.hold (TypeExpr.parenthesized u) ')' := by
    have hmode' : (((s.hold ['('] '(').nest s.angles (s.parens + 1)).hold u last).mode = .code :=
      hmode
    rw [step_of_held hmode' (blank_hold hheld' u last) (by decide) (by decide)]
    simp [hold, nest, anglesAfter, parensAfter, TypeExpr.parenthesized]
  have hparen : ')' ≠ '=' := by decide
  refine ⟨')', fun _ => hparen, ?_⟩
  rw [← hclose, ← hin, ← hopen, TypeExpr.parenthesized, run_append, run_cons]
  rfl

/-- An angle bracket opens only after a name, so the arguments go with the name's end. -/
theorem arguments {c : Char} (hc : isNameChar c = true) (hu : Holds u) :
    Holds (c :: '<' :: u ++ ['>']) := by
  intro s hmode hheld
  have hname : s.step c = s.hold [c] c := step_of_isPlain hmode hheld (isPlain_of_isNameChar hc)
  have hafter : (Text.isAlphanumeric c || c = '_' || c = '$') = true := by
    simp only [isNameChar, Bool.or_eq_true] at hc ⊢
    rcases hc with (hc | hc) | hc
    · exact .inl (.inl (Text.isAlphanumeric_of_isAlphanum hc))
    · exact .inl (.inr hc)
    · exact .inr hc
  have hopen : (s.hold [c] c).step '<' = (s.hold [c, '<'] '<').nest (s.angles + 1) s.parens := by
    have hmode' : (s.hold [c] c).mode = .code := hmode
    rw [step_of_held hmode' (blank_hold hheld _ _) (by decide) (by decide), hold_hold]
    simp [hold, nest, anglesAfter, parensAfter, hafter]
  have hheld' := blank_hold hheld [c, '<'] '<'
  obtain ⟨last, hlast, hin⟩ := hu ((s.hold [c, '<'] '<').nest (s.angles + 1) s.parens) hmode hheld'
  have hopened : '<' ≠ '=' := by decide
  have hclose : (((s.hold [c, '<'] '<').nest (s.angles + 1) s.parens).hold u last).step '>' =
      s.hold (c :: '<' :: u ++ ['>']) '>' := by
    have hmode' :
        (((s.hold [c, '<'] '<').nest (s.angles + 1) s.parens).hold u last).mode = .code := hmode
    rw [step_of_held hmode' (blank_hold hheld' u last) (by decide) (by decide)]
    simp [hold, nest, anglesAfter, parensAfter, hlast hopened]
  have hclosed : '>' ≠ '=' := by decide
  refine ⟨'>', fun _ => hclosed, ?_⟩
  rw [← hclose, ← hin, ← hopen, ← hname, run_append, run_cons, run_cons]
  rfl

theorem square : Holds ['[', ']'] := by
  intro s hmode hheld
  have hopen : s.step '[' = s.hold ['['] '[' := step_of_held hmode hheld (by decide) (by decide)
  have hclose : (s.hold ['['] '[').step ']' = s.hold ['[', ']'] ']' :=
    step_of_held hmode (blank_hold hheld _ _) (by decide) (by decide)
  have hclosed : ']' ≠ '=' := by decide
  refine ⟨']', fun _ => hclosed, ?_⟩
  rw [run_cons, run_cons, hopen, hclose, run_nil]

/-- Balanced code is held as it is. -/
theorem of_code {no : Text} (h : Code no t) : Holds t := by
  induction h with
  | nil => exact .nil
  | plain hc _ _ ih => exact (Holds.plain hc).append ih
  | literal hv _ ih => exact (Holds.quoted hv).append ih
  | parens _ _ ihin ih => exact (Holds.parenthesized ihin).append ih
  | @angles _ u t c hc _ _ _ ihin ih =>
    have htext : c :: '<' :: u ++ '>' :: t = (c :: '<' :: u ++ ['>']) ++ t := by simp
    rw [htext]
    exact (Holds.arguments hc ihin).append ih
  | square _ ih => exact Holds.square.append ih

end Holds

end Cutter

/-! ## Between lines and inside a line -/

/-- What is said in a segment: its text and the comment before it. -/
def Segment.content (s : Segment) : Text × Option Text := (s.text, s.doc)

namespace Cutter

/-- Between two lines no bracket is open and nothing is held. `read` are the segments read, last
first, and `doc` is the comment for the next one. -/
structure Ready (s : Cutter) (doc : Option Text) (read : List (Text × Option Text)) : Prop where
  mode : s.mode = .code
  buffer : Text.blank s.buffer = true
  angles : s.angles = 0
  parens : s.parens = 0
  doc : s.doc = doc
  done : s.done.map Segment.content = read

/-- Inside a line the code `text` is held. -/
structure Holding (s : Cutter) (text : Text) (doc : Option Text)
    (read : List (Text × Option Text)) : Prop where
  mode : s.mode = .code
  buffer : ∃ b, Text.blank b = true ∧ s.buffer.reverse = b ++ text
  held : Text.blank s.buffer = false
  line : s.bufferLine = s.line
  angles : s.angles = 0
  parens : s.parens = 0
  doc : s.doc = doc
  done : s.done.map Segment.content = read

theorem ready_start : Ready start none [] := ⟨rfl, rfl, rfl, rfl, rfl, rfl⟩

theorem stepCode_newline {s : Cutter} (h : s.nested = false) :
    s.stepCode '\n' = { s.flush with line := s.line + 1, last := '\n' } := by
  have hquote : isQuoteMark '\n' = false := by decide
  simp [stepCode, hquote, h]

theorem step_newline {s : Cutter} (hmode : s.mode = .code) (h : s.nested = false) :
    s.step '\n' = { s.flush with line := s.line + 1, last := '\n' } := by
  rw [step, hmode]
  exact stepCode_newline h

theorem step_semicolon {s : Cutter} (hmode : s.mode = .code) (h : s.nested = false) :
    s.step ';' = { s.flush with last := ';' } := by
  have hquote : isQuoteMark ';' = false := by decide
  simp [step, hmode, stepCode, hquote, h]

namespace Ready

variable {s : Cutter} {doc : Option Text} {read : List (Text × Option Text)}

/-- The brace that closes a block ends what is held, and is a segment by itself. -/
theorem step_closeBrace (hflush : Ready s.flush doc read) (hmode : s.mode = .code)
    (hnested : s.nested = false) : Ready (s.step '\x7d') none ((['\x7d'], none) :: read) := by
  have hquote : isQuoteMark '\x7d' = false := by decide
  have hstep : s.step '\x7d' = s.closeBrace := by
    simp [step, hmode, stepCode, hquote, hnested]
  rw [hstep]
  refine ⟨hflush.mode, hflush.buffer, hflush.angles, hflush.parens, rfl, ?_⟩
  rw [← hflush.done]
  rfl

theorem nested (h : Ready s doc read) : s.nested = false := by
  simp [Cutter.nested, h.angles, h.parens]

theorem flush (h : Ready s doc read) : Ready s.flush doc read := by
  rw [flush_of_blank h.buffer]
  exact ⟨h.mode, rfl, h.angles, h.parens, h.doc, h.done⟩

/-- Nothing depends on where the pass is in the text. -/
theorem move (h : Ready s doc read) (line : Nat) (last : Char) :
    Ready { s with line := line, last := last } doc read :=
  ⟨h.mode, h.buffer, h.angles, h.parens, h.doc, h.done⟩

theorem newline (h : Ready s doc read) : Ready (s.step '\n') doc read := by
  rw [step_newline h.mode h.nested]
  exact h.flush.move _ _

theorem newlines (h : Ready s doc read) (n : Nat) :
    Ready (s.run (List.replicate n '\n')) doc read := by
  induction n generalizing s with
  | zero => exact h
  | succ n ih => exact ih h.newline

theorem space (h : Ready s doc read) : Ready (s.step ' ') doc read := by
  have hspace : Text.isBlank ' ' = true := by decide
  have hplain : isPlain ' ' = true := by decide
  rw [step_of_code h.mode (by decide) (by decide), addCode, anglesAfter_of_isPlain hplain,
    parensAfter_of_isPlain hplain]
  refine ⟨h.mode, ?_, h.angles, h.parens, h.doc, h.done⟩
  have := h.buffer
  simp only [Text.blank] at this
  simp [add, Text.blank, hspace, this]

theorem spaces (h : Ready s doc read) (n : Nat) :
    Ready (s.run (List.replicate n ' ')) doc read := by
  induction n generalizing s with
  | zero => exact h
  | succ n ih => exact ih h.space

theorem closeBrace (h : Ready s doc read) :
    Ready (s.step '\x7d') none ((['\x7d'], none) :: read) :=
  h.flush.step_closeBrace h.mode h.nested

/-- A line of code begins with a character that is no bracket and ends nothing. -/
theorem hold_char (h : Ready s doc read) {c : Char} (hblank : Text.isBlank c = false)
    (hquote : isQuoteMark c = false)
    (hc : c ∉ ['/', '\n', '\x7b', '\x7d', ';', '<', '>', '(', ')']) :
    Holding (s.step c) [c] doc read := by
  simp only [List.mem_cons, List.not_mem_nil, or_false, not_or] at hc
  have hangles : s.anglesAfter c = s.angles := by simp [anglesAfter, hc]
  have hparens : s.parensAfter c = s.parens := by simp [parensAfter, hc]
  rw [step_of_code h.mode hquote (by simp [hc]), addCode, hangles, hparens]
  refine ⟨h.mode, ⟨s.buffer.reverse, ?_, ?_⟩, ?_, ?_, h.angles, h.parens, h.doc, h.done⟩
  · have := h.buffer
    simp only [Text.blank, List.all_reverse] at this ⊢
    exact this
  · simp [add]
  · simp [add, Text.blank, hblank]
  · simp [add, hblank, h.buffer]

theorem hold_name (h : Ready s doc read) {c : Char} (hc : isNameChar c = true) :
    Holding (s.step c) [c] doc read := by
  have hplain := isPlain_of_isNameChar hc
  refine h.hold_char (Text.isBlank_of_isNameChar hc) (not_isQuoteMark_of_isPlain hplain) ?_
  exact not_mem_of_class hplain (by decide)

end Ready

namespace Holding

variable {s : Cutter} {text : Text} {doc : Option Text} {read : List (Text × Option Text)}

theorem nested (h : Holding s text doc read) : s.nested = false := by
  simp [Cutter.nested, h.angles, h.parens]

theorem hold (h : Holding s text doc read) (t : Text) (last : Char) :
    Holding (s.hold t last) (text ++ t) doc read := by
  obtain ⟨b, hb, hbuffer⟩ := h.buffer
  refine ⟨h.mode, ⟨b, hb, ?_⟩, blank_hold h.held t last, h.line, h.angles, h.parens, h.doc,
    h.done⟩
  simp [Cutter.hold, hbuffer]

theorem holds (h : Holding s text doc read) {t : Text} (ht : Holds t) :
    Holding (s.run t) (text ++ t) doc read := by
  obtain ⟨last, -, hrun⟩ := ht s h.mode h.held
  rw [hrun]
  exact h.hold t last

theorem code (h : Holding s text doc read) {no t : Text} (ht : Code no t) :
    Holding (s.run t) (text ++ t) doc read :=
  h.holds (.of_code ht)

theorem equals (h : Holding s text doc read) : Holding (s.step '=') (text ++ ['=']) doc read := by
  rw [step_of_held h.mode h.held (by decide) (by decide)]
  exact h.hold ['='] '='

/-- What is held makes a segment of its text, without the blanks around it. -/
theorem flush_eq {b : Text} (h : Holding s (text ++ b) doc read) (hsolid : Text.Solid text)
    (hb : Text.blank b = true) :
    s.flush = { s with buffer := [], done := ⟨text, s.line, doc⟩ :: s.done, doc := none } := by
  obtain ⟨b', hb', hbuffer⟩ := h.buffer
  have htrim : Text.trim s.buffer.reverse = text := by
    rw [hbuffer, ← List.append_assoc]
    exact hsolid.trim_between hb' hb
  simp only [Cutter.flush, htrim, hsolid.ne_nil, if_false, h.line, h.doc]

theorem done_flush (h : Holding s text doc read) (hsolid : Text.Solid text) :
    s.flush.done = ⟨text, s.line, doc⟩ :: s.done := by
  have hheld : Holding s (text ++ []) doc read := by rwa [List.append_nil]
  rw [hheld.flush_eq hsolid rfl]

/-- The end of the line makes a segment of the text. -/
theorem flush (h : Holding s text doc read) {e : Text} (hsolid : Text.Solid (text ++ e)) :
    Ready ({ s with buffer := e.reverse ++ s.buffer } : Cutter).flush none
      ((text ++ e, doc) :: read) := by
  have hheld := h.hold e s.last
  have hall : Holding ({ s with buffer := e.reverse ++ s.buffer } : Cutter) (text ++ e ++ []) doc
      read := by
    rw [List.append_nil]
    exact hheld
  rw [hall.flush_eq hsolid rfl]
  refine ⟨h.mode, rfl, h.angles, h.parens, rfl, ?_⟩
  rw [List.map_cons, h.done]
  rfl

theorem settle (h : Holding s text doc read) (hsolid : Text.Solid text) :
    Ready s.flush none ((text, doc) :: read) := by
  have hflush := h.flush (e := []) (by rwa [List.append_nil])
  rwa [List.append_nil] at hflush

theorem newline (h : Holding s text doc read) (hsolid : Text.Solid text) :
    Ready (s.step '\n') none ((text, doc) :: read) := by
  rw [step_newline h.mode h.nested]
  exact (h.settle hsolid).move _ _

theorem semicolon (h : Holding s text doc read) (hsolid : Text.Solid text) :
    Ready (s.step ';') none ((text, doc) :: read) ∧
      ∃ done, (s.step ';').done = ⟨text, (s.step ';').line, doc⟩ :: done := by
  rw [step_semicolon h.mode h.nested]
  have hdone := h.done_flush hsolid
  refine ⟨(h.settle hsolid).move _ _, s.done, ?_⟩
  rw [← s.line_flush] at hdone
  exact hdone

/-- The brace that opens a block belongs to its header. -/
theorem openBrace (h : Holding s text doc read) (hsolid : Text.Solid (text ++ ['\x7b'])) :
    Ready (s.step '\x7b') none ((text ++ ['\x7b'], doc) :: read) := by
  have hquote : isQuoteMark '\x7b' = false := by decide
  have hstep : s.step '\x7b' = s.openBrace := by
    simp [step, h.mode, stepCode, hquote, h.nested]
  rw [hstep]
  exact (h.flush hsolid).move _ _

end Holding

end Cutter

end InterfaceForms

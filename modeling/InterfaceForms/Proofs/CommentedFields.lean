import InterfaceForms.Proofs.CommentedDeclarations

/-!
# Comments behind fields

The members whose names and types can be written, each with any blanks before it, and behind it a
semicolon, a newline or a comment. After any text that leaves no line open, such members make a
block whose comments describe them.

* `Cutter.Ready.members`: the lines of fields are lines of members.
* `MemberBlock.exists_of_fieldLines`: a block of fields is one of members.
-/

namespace InterfaceForms

/-- What stands behind the code of a member. -/
inductive FieldEnd
  | semicolon
  | newline
  /-- A comment, with a semicolon and blanks before it. -/
  | comment (close : Bool) (blanks words : Text)

def FieldEnd.WellFormed : FieldEnd → Prop
  | .semicolon | .newline => True
  | .comment _ blanks words => Text.blank blanks = true ∧ '\n' ∉ blanks ∧ '\n' ∉ words

/-- A member as it is written, without its note. -/
structure FieldLine where
  /-- The blanks before it, which may hold newlines. -/
  blanks : Text
  field : FieldDecl
  ending : FieldEnd

namespace FieldLine

structure WellFormed (l : FieldLine) : Prop where
  blanks : Text.blank l.blanks = true
  field : l.field.WellFormed
  ending : l.ending.WellFormed

def line (l : FieldLine) : CodeLine :=
  match l.ending with
  | .semicolon => ⟨l.blanks ++ l.field.code ++ [';'], none⟩
  | .newline => ⟨l.blanks ++ l.field.code ++ ['\n'], none⟩
  | .comment close blanks words =>
    ⟨l.blanks ++ l.field.code ++ (terminator close ++ blanks), some words⟩

/-- The member, without a description. -/
def member (l : FieldLine) : Member :=
  ⟨l.field.name, l.field.optional, l.field.type.print, none, l.field.type.shape⟩

end FieldLine

/-! ## The lines of fields -/

namespace Cutter

variable {s : Cutter} {text : Text} {doc : Option Text} {read : List (Text × Option Text)}

theorem Ready.blank (h : Ready s doc read) {c : Char} (hc : Text.isBlank c = true) :
    Ready (s.step c) doc read := by
  by_cases hline : c = '\n'
  · rw [hline]
    exact h.newline
  · rw [step_of_isBlank h.mode hc hline]
    refine ⟨h.mode, ?_, h.angles, h.parens, h.doc, h.done⟩
    have hbuffer := h.buffer
    simp only [Text.blank] at hbuffer
    simp [add, Text.blank, hc, hbuffer]

theorem Ready.blanks (h : Ready s doc read) {b : Text} (hb : Text.blank b = true) :
    Ready (s.run b) doc read :=
  run_of_step_blank (P := fun r => Ready r doc read) (fun _ _ hc hr => hr.blank hc) hb h

theorem Ready.done_flush (h : Ready s doc read) : s.flush.done = s.done := by
  rw [flush_of_blank h.buffer]

/-- Code that begins with a name is held, and what was read before is as it was. -/
theorem Ready.run_code (h : Ready s doc read) {b n u : Text} (hb : Text.blank b = true)
    (hn : IsName n) (hu : Code [] u) :
    Holding (s.run (b ++ (n ++ u))) (n ++ u) doc read ∧ (s.run (b ++ (n ++ u))).done = s.done := by
  have hready := h.blanks hb
  have hdone : (s.run b).done = s.done := by
    rw [← hready.done_flush, ← h.done_flush]
    exact (run_blank h.mode h.nested hb).2.2
  rw [run_append, ← hdone]
  exact hready.hold_code hn hu

theorem Ready.run_field (h : Ready s doc read) {b : Text} (hb : Text.blank b = true)
    {f : FieldDecl} (hf : f.WellFormed) :
    Holding (s.run (b ++ f.code)) f.code doc read ∧ (s.run (b ++ f.code)).done = s.done := by
  rw [FieldDecl.code_eq]
  exact h.run_code hb hf.name hf.code_afterName

theorem Settled.blank (h : s.Settled read) {c : Char} (hc : Text.isBlank c = true) :
    (s.step c).Settled read := by
  by_cases hline : c = '\n'
  · rw [hline]
    exact h.newline.settled
  · rw [step_of_isBlank h.mode hc hline]
    refine ⟨h.mode, h.nested, ?_⟩
    rw [s.flush_add hc]
    exact h.flush.move _ _

theorem Settled.blanks (h : s.Settled read) {b : Text} (hb : Text.blank b = true) :
    (s.run b).Settled read :=
  run_of_step_blank (P := fun r => r.Settled read) (fun _ _ hc hr => hr.blank hc) hb h

/-- Blanks without a newline do not leave the line. -/
theorem line_run_blank {b : Text} (hmode : s.mode = .code) (hb : Text.blank b = true)
    (hline : '\n' ∉ b) : (s.run b).line = s.line := by
  induction b generalizing s with
  | nil => rfl
  | cons c b ih =>
    simp only [Text.blank, List.all_cons, Bool.and_eq_true] at hb
    rw [List.mem_cons, not_or] at hline
    obtain ⟨hc, hline⟩ := hline
    rw [run_cons, step_of_isBlank hmode hb.1 (Ne.symm hc)]
    exact ih (s := s.add c) hmode hb.2 hline

/-- With a semicolon or without, the code of a line is the segment of the line. -/
theorem Holding.close (h : Holding s text none read) (hsolid : Text.Solid text) (close : Bool) :
    (s.run (terminator close)).Settled ((text, none) :: read) ∧
      (s.run (terminator close)).flush.done = ⟨text, s.line, none⟩ :: s.done ∧
      (s.run (terminator close)).line = s.line := by
  refine ⟨h.run_end hsolid close, ?_⟩
  cases close with
  | false => exact ⟨h.done_flush hsolid, rfl⟩
  | true =>
    have hrun : s.run (terminator true) = { s.flush with last := ';' } :=
      step_semicolon h.mode h.nested
    rw [hrun]
    refine ⟨?_, line_flush s⟩
    rw [done_flush_of_empty (by exact s.buffer_flush)]
    exact h.done_flush hsolid

/-- The line of a field makes the segment of a member. -/
theorem Ready.line (h : Ready s none read) {l : FieldLine} (hl : l.WellFormed) :
    ∃ segment : Segment, segment.text = l.field.code ∧ segment.doc = none ∧
      (s.run l.line.code).flush.done = segment :: s.flush.done ∧
      (∀ comment ∈ l.line.comment, (s.run l.line.code).mode = .code ∧
        (s.run l.line.code).nested = false ∧ segment.line = (s.run l.line.code).line ∧
        '\n' ∉ comment) ∧
      Ready (s.run l.line.bare) none ((l.field.code, none) :: read) := by
  obtain ⟨blanks, f, ending⟩ := l
  have hsolid : f.code.Solid := hl.field.solid
  have hending := hl.ending
  obtain ⟨hheld, hdone⟩ := h.run_field hl.blanks hl.field
  refine ⟨⟨f.code, (s.run (blanks ++ f.code)).line, none⟩, rfl, rfl, ?_⟩
  rw [h.done_flush, ← hdone]
  cases ending with
  | semicolon =>
    obtain ⟨-, hclosed, -⟩ := hheld.close hsolid true
    obtain ⟨hready, -⟩ := hheld.semicolon hsolid
    simp only [FieldLine.line, CodeLine.bare, run_append _ (blanks ++ f.code)]
    exact ⟨hclosed, nofun, hready⟩
  | newline =>
    obtain ⟨-, -, hflush⟩ := run_blank hheld.mode hheld.nested (b := ['\n']) (by decide)
    simp only [FieldLine.line, CodeLine.bare, run_append _ (blanks ++ f.code)]
    exact ⟨hflush.trans (hheld.done_flush hsolid), nofun, hheld.newline hsolid⟩
  | comment close blanks' words =>
    obtain ⟨hblank, hline, hwords⟩ := hending
    obtain ⟨hsettled, hclosed, hsame⟩ := hheld.close hsolid close
    have hafter := hsettled.blanks hblank
    obtain ⟨-, -, hflush⟩ := run_blank hsettled.mode hsettled.nested hblank
    have hstay := line_run_blank hsettled.mode hblank hline
    simp only [FieldLine.line, run_bare, run_append _ (blanks ++ f.code),
      run_append _ (terminator close)]
    refine ⟨hflush.trans hclosed, ?_, hafter.newline⟩
    rintro comment ⟨⟩
    exact ⟨hafter.mode, hafter.nested, (hstay.trans hsame).symm, hwords⟩

/-- The lines of fields are lines of members. -/
theorem Ready.members (h : Ready s none read) {fields : List FieldLine}
    (hfields : ∀ l ∈ fields, l.WellFormed) :
    ∃ members : List (Segment × Member), s.Members (fields.map FieldLine.line) members ∧
      (members.map fun p => { p.2 with description := p.1.doc }) = fields.map FieldLine.member ∧
      ∃ read', Ready (s.run ((fields.map FieldLine.line).flatMap CodeLine.bare)) none read' := by
  induction fields generalizing s read with
  | nil => exact ⟨[], trivial, rfl, read, h⟩
  | cons l fields ih =>
    obtain ⟨hl, hfields⟩ := List.forall_mem_cons.1 hfields
    obtain ⟨segment, htext, hdoc, hdone, hcomment, hready⟩ := h.line hl
    obtain ⟨members, hmembers, heq, read', hready'⟩ := ih hready hfields
    refine ⟨(segment, l.member) :: members, ⟨hdone, hl.field.isMember htext, hcomment, hmembers⟩,
      ?_, read', ?_⟩
    · rw [List.map_cons, List.map_cons, heq, hdoc]
      rfl
    · rw [List.map_cons, List.flatMap_cons, run_append]
      exact hready'

end Cutter

/-! ## A block of fields -/

namespace MemberBlock

variable {doc : Option Text} {read : List (Text × Option Text)}

/-- Where no line is open, a header and fields make a block of members. -/
theorem exists_of_fieldLines {before after name : Text}
    (hbefore : (Cutter.start.run before).Ready doc read) (hname : IsName name)
    {fields : List FieldLine} (hfields : ∀ l ∈ fields, l.WellFormed)
    (hafter : Text.lead? after = some '\x7d') :
    ∃ b : MemberBlock (before ++ ("interface ".toList ++ name ++ " \x7b".toList))
        (fields.map FieldLine.line) after,
      b.header.name = name ∧ b.read = fields.map FieldLine.member := by
  have hheader := hbefore.header hname
  rw [← Cutter.run_append] at hheader
  obtain ⟨members, hholds, heq, _, hready⟩ := hheader.members hfields
  obtain ⟨opener, earlier, hdone, hopener, -⟩ := List.map_eq_cons_iff.1 hheader.done
  have htext : opener.text = "interface ".toList ++ name ++ " \x7b".toList :=
    congrArg Prod.fst hopener
  have hbrace : Text.endsWith '\x7b' opener.text = true := by
    rw [htext, Text.endsWith_append (by decide)]
    decide
  refine ⟨⟨⟨name, ['\x7b']⟩, opener.line, earlier.reverse, [(opener, .opening)], members, ?_,
    .sameLine ?_, List.forall_mem_singleton.2 hbrace, hholds, hready.mode, hready.nested, hafter⟩,
    rfl, heq⟩
  · rw [hheader.done_flush, hdone]
    simp
  · have hrest : Text.Solid ['\x7b'] := .singleton (by decide)
    have hline := Header.ofLine?_of_word (.inl rfl) hname hrest (by decide)
    simpa [htext] using hline

end MemberBlock

end InterfaceForms

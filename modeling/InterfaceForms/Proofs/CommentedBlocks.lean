import InterfaceForms.Proofs.Blocks
import InterfaceForms.Proofs.CommentedMembers
import InterfaceForms.Proofs.PrintedSources

/-!
# Blocks with comments

A comment behind a member of a block becomes part of the segment of the member, which is then
inspected as a whole: for braces, for a header, for a bar. The comment stands at its end, and there
only an opening brace is looked for. So comments that end in no opening brace describe their
members and change nothing else; one that does makes the member look like one whose type is an
object.

* `Segment.IsMember.commented`: how the segment of a member is read with a comment at its end.
* `Cutter.Abreast.lines`: the segments of the lines of members with comments and without.
* `Cutter.Abreast.closed`: that these make no difference to what follows the block.
-/

namespace InterfaceForms

/-! ## Members and their comments -/

namespace CodeLine

/-- What the comment says, if it says something. -/
def words? (line : CodeLine) : Option Text := (line.comment.map Cutter.words).filter (· ≠ [])

/-- The code and its comment, which goes on to the end of the line. Without a comment the next code
may follow on the same line. -/
def ended (line : CodeLine) : Text :=
  match line.comment with
  | none => line.code
  | some comment => line.code ++ '/' :: '/' :: comment ++ ['\n']

/-- The same without the comment. -/
def bare (line : CodeLine) : Text :=
  match line.comment with
  | none => line.code
  | some _ => line.code ++ ['\n']

/-- The comment describes the member, if it says something. -/
def described (line : CodeLine) (m : Member) : Member :=
  { m with description := line.words?.or m.description }

theorem words?_some (code comment : Text) :
    words? ⟨code, some comment⟩ =
      if Cutter.words comment = [] then none else some (Cutter.words comment) := by
  simp [words?, Option.filter]

end CodeLine

namespace Segment

/-- The segment is the line of the member, without a comment. -/
structure IsMember (s : Segment) (m : Member) : Prop where
  starts : MemberLine.startsMember s.text = true
  header : Header.ofLine? s.text = none
  opens : Text.endsWith '\x7b' s.text = false
  written : Member.Written s.text m

instance (s : Segment) (m : Member) : Decidable (s.IsMember m) :=
  decidable_of_iff (MemberLine.startsMember s.text = true ∧ Header.ofLine? s.text = none ∧
      Text.endsWith '\x7b' s.text = false ∧ Member.Written s.text m)
    ⟨fun ⟨starts, header, opens, written⟩ => ⟨starts, header, opens, written⟩,
      fun h => ⟨h.starts, h.header, h.opens, h.written⟩⟩

/-- What the segment becomes with a comment that says `words?`. -/
inductive Commented : Option Text → Segment → Segment → Prop
  | silent {s : Segment} : Commented none s s
  | said {s : Segment} {words b : Text} (hwords : words.Solid) (hb : Text.blank b = true) :
    Commented (some words) s { s with text := s.text ++ (b ++ Cutter.trailer words) }

/-- In a block the segment is read as the member. -/
structure GivesMember (s : Segment) (m : Member) : Prop where
  starts : MemberLine.startsMember s.text = true
  header : Header.ofLine? s.text = none
  opens : Text.endsWith '\x7b' s.text = false
  member? : MemberLine.member? ⟨s.text, s.doc⟩ = .ok (some m)

variable {s s' : Segment} {m : Member}

theorem ne_brace_of_startsMember (h : MemberLine.startsMember s.text = true) :
    s.text ≠ ['\x7d'] := by
  have hother : MemberLine.startsMember ['\x7d'] = false := by decide +kernel
  intro hbrace
  rw [hbrace, hother] at h
  cases h

theorem IsMember.takesComment (h : s.IsMember m) : s.takesComment = true := by
  simp [Segment.takesComment, ne_brace_of_startsMember h.starts, h.opens]

theorem IsMember.gives (h : s.IsMember m) : s.GivesMember { m with description := s.doc } :=
  ⟨h.starts, h.header, h.opens, MemberLine.member?_of_written h.written s.doc⟩

/-- A comment at the end is not looked at for anything but an opening brace. -/
theorem IsMember.commented (h : s.IsMember m) {line : CodeLine}
    (hcomment : Commented line.words? s s')
    (hbrace : ∀ words ∈ line.words?, Text.endsWith '\x7b' words = false) :
    s'.GivesMember (line.described { m with description := s.doc }) := by
  unfold CodeLine.described
  generalize line.words? = words? at hcomment hbrace
  cases hcomment with
  | silent => exact h.gives
  | @said _ words b hwords hb =>
    have hcolon := h.written.colon_mem
    constructor
    · obtain ⟨c, t, ht⟩ := List.exists_cons_of_ne_nil (List.ne_nil_of_mem hcolon)
      have hstart := h.starts
      rw [ht] at hstart
      simpa [ht, MemberLine.startsMember] using hstart
    · exact Header.ofLine?_append hcolon h.header _
    · have hend : s.text ++ (b ++ Cutter.trailer words) =
          (s.text ++ (b ++ " // ".toList)) ++ words := by
        simp [Cutter.trailer]
      dsimp only
      rw [hend, Text.endsWith_append hwords.ne_nil]
      exact hbrace words rfl
    · exact MemberLine.member?_trailer h.written s.doc hb hwords

end Segment

/-- The code of a printed member is the line of one. -/
theorem FieldDecl.WellFormed.isMember {f : FieldDecl} (h : f.WellFormed) {s : Segment}
    (hs : s.text = f.code) :
    s.IsMember ⟨f.name, f.optional, f.type.print, none, f.type.shape⟩ := by
  have hwell : ({ f with note := .none } : FieldDecl).WellFormed := ⟨h.name, h.type, trivial⟩
  generalize hl : (⟨0, false, false, 0, 0⟩ : Layout) = l
  have htext : ({ f with note := .none } : FieldDecl).lineText l = s.text := by
    rw [hs]
    exact List.append_nil _
  have hbare : Member.bareLine s.text = f.code := by rw [← htext, hwell.bareLine l, htext, hs]
  have hcut := h.code.cutComment? []
  rw [List.append_nil] at hcut
  refine ⟨?_, ?_, ?_, ?_, ?_, ?_⟩
  · rw [← htext]
    exact hwell.startsMember_lineText l
  · rw [← htext]
    exact hwell.ofLine?_lineText l
  · rw [hs]
    exact h.ends.endsWith (by decide)
  · rw [← htext]
    exact FieldDecl.ofLine_lineText hwell l
  · rw [hbare, hcut]
    rfl
  · rw [hbare]
    exact h.code.closed

/-! ## The segments -/

namespace Cutter

/-- The code of each line ends one more segment, which is that of the next member. Where the line
has a comment, the member is of the same line, and its code ends outside literals and brackets. -/
def Members (s : Cutter) : List CodeLine → List (Segment × Member) → Prop
  | [], [] => True
  | line :: lines, (segment, m) :: members =>
    (s.run line.code).flush.done = segment :: s.flush.done ∧ segment.IsMember m ∧
      (∀ comment ∈ line.comment, (s.run line.code).mode = .code ∧
        (s.run line.code).nested = false ∧ segment.line = (s.run line.code).line ∧
        '\n' ∉ comment) ∧
      Members (s.run line.bare) lines members
  | _, _ => False

theorem solid_words {comment : Text} (h : words comment ≠ []) : (words comment).Solid :=
  Text.solid_trim (Bool.eq_false_iff.2 fun hblank => h (Text.trim_eq_nil.2 hblank))

instance decidableMembers : (s : Cutter) → (lines : List CodeLine) →
    (members : List (Segment × Member)) → Decidable (s.Members lines members)
  | _, [], [] => .isTrue trivial
  | s, line :: lines, (_, _) :: members =>
    have := decidableMembers (s.run line.bare) lines members
    inferInstanceAs (Decidable (_ ∧ _))
  | _, [], _ :: _ => .isFalse nofun
  | _, _ :: _, [] => .isFalse nofun

/-- Each line has its member. -/
theorem Members.forall₂ {s : Cutter} {lines : List CodeLine} {members : List (Segment × Member)}
    (h : s.Members lines members) : List.Forall₂ (fun _ p => p.1.IsMember p.2) lines members := by
  induction lines generalizing s members with
  | nil =>
    cases members with
    | nil => exact .nil
    | cons p members => exact h.elim
  | cons line lines ih =>
    cases members with
    | nil => exact h.elim
    | cons p members =>
      obtain ⟨-, hmember, -, hrest⟩ := h
      exact .cons hmember (ih hrest)

/-- A comment that says something joins the segment that the code before it has ended, or ends.
A segment that has ended must be of the same line. -/
theorem exists_joined {s : Cutter} {segment : Segment} {done : List Segment}
    (hmode : s.mode = .code) (hnested : s.nested = false) (hdone : s.flush.done = segment :: done)
    (hline : Text.blank s.buffer = true → segment.line = s.line)
    (htakes : segment.takesComment = true) {comment : Text}
    (hcomment : '\n' ∉ comment) (hwords : words comment ≠ []) :
    ∃ b, Text.blank b = true ∧ (s.run ('/' :: '/' :: comment)).step '\n' =
      { s.step '\n' with
        done :=
          { segment with text := segment.text ++ (b ++ trailer (words comment)) } :: done } := by
  have hwords' : ¬ Text.trim (comment.dropWhile (· = '/')) = [] := hwords
  cases hblank : Text.blank s.buffer with
  | true =>
    rw [flush_of_blank hblank] at hdone
    change s.done = segment :: done at hdone
    have hjoins : s.joins comment = true := by
      simp [joins, hwords', hnested, hdone, hline hblank, htakes]
    obtain ⟨-, -, ⟨hheld, -⟩ | ⟨-, last, done', hs, heq⟩⟩ := endLineComment_of_joins hjoins
    · rw [hblank] at hheld
      cases hheld
    · obtain ⟨rfl, rfl⟩ := List.cons.inj (hs.symm.trans hdone)
      refine ⟨[], rfl, ?_⟩
      rw [step_comment hmode hcomment, heq, stepCode_newline (by exact hnested),
        step_newline hmode hnested, flush_of_blank hblank, flush_of_blank (by exact hblank), hmode]
      rfl
  | false =>
    rw [flush_of_held hblank] at hdone
    obtain ⟨rfl, rfl⟩ := List.cons.inj hdone
    have hjoins : s.joins comment = true := by simp [joins, hwords', hnested, hblank]
    obtain ⟨-, -, ⟨-, heq⟩ | ⟨hfree, -⟩⟩ := endLineComment_of_joins hjoins
    · have hheld : Text.blank ((trailer (words comment)).reverse ++ s.buffer) = false :=
        blank_push hblank _
      have hsolid := solid_words hwords
      have hend : Text.trimEnd (trailer (words comment)) = trailer (words comment) := by
        rw [trailer, Text.trimEnd_append hsolid.not_blank, hsolid.trimEnd]
      have hsaid : Text.blank (trailer (words comment)) = false :=
        Text.not_blank_of_mem (c := '/') (by simp [trailer]) (by decide)
      obtain ⟨b, hb, htrim⟩ := Text.exists_trim_append (t := s.buffer.reverse)
        (by simpa [Text.blank] using hblank) hsaid hend
      refine ⟨b, hb, ?_⟩
      rw [step_comment hmode hcomment, heq, stepCode_newline (by exact hnested),
        step_newline hmode hnested, flush_of_held hblank, flush_of_held (by exact hheld), hmode,
        ← htrim]
      simp
    · rw [hblank] at hfree
      cases hfree

/-- A comment behind the last segment of a line becomes part of it, if it says something. -/
theorem exists_commented {s : Cutter} {segment : Segment} {done : List Segment}
    (hmode : s.mode = .code) (hnested : s.nested = false) (hdone : s.flush.done = segment :: done)
    (hline : Text.blank s.buffer = true → segment.line = s.line)
    (htakes : segment.takesComment = true) (code : Text) {comment : Text}
    (hcomment : '\n' ∉ comment) :
    ∃ segment', Segment.Commented (CodeLine.words? ⟨code, some comment⟩) segment segment' ∧
      segment'.line = segment.line ∧
      (s.run ('/' :: '/' :: comment)).step '\n' =
        { s.step '\n' with done := segment' :: done } := by
  rw [CodeLine.words?_some]
  by_cases hwords : words comment = []
  · have hdropped : s.joins comment = false := by
      have hwords' : Text.trim (comment.dropWhile (· = '/')) = [] := hwords
      simp [joins, hwords']
    have hsame : (s.step '\n').done = segment :: done := by
      rw [step_newline hmode hnested]
      exact hdone
    rw [if_pos hwords, step_comment_of_dropped hmode hcomment hdropped]
    refine ⟨segment, .silent, rfl, ?_⟩
    rw [← hsame]
  · obtain ⟨b, hb, hstep⟩ :=
      exists_joined hmode hnested hdone hline htakes hcomment hwords
    rw [if_neg hwords]
    exact ⟨_, .said (solid_words hwords) hb, rfl, hstep⟩

theorem run_bare (s : Cutter) (code comment : Text) :
    s.run (CodeLine.bare ⟨code, some comment⟩) = (s.run code).step '\n' :=
  s.run_append_newline code

theorem run_ended (s : Cutter) (code comment : Text) :
    s.run (CodeLine.ended ⟨code, some comment⟩) =
      ((s.run code).run ('/' :: '/' :: comment)).step '\n' := by
  rw [CodeLine.ended, run_append_newline, run_append]

/-! ## Blanks before a brace -/

/-- A blank that ends no line is kept with the code. -/
theorem step_of_isBlank {s : Cutter} (hmode : s.mode = .code) {c : Char}
    (hc : Text.isBlank c = true) (hline : c ≠ '\n') : s.step c = s.add c := by
  obtain ⟨hquote, hspecial⟩ := Text.ordinary_of_isBlank hc
  simp only [List.mem_cons, List.not_mem_nil, or_false, not_or] at hspecial
  obtain ⟨hslash, hsemi, hopen, hclose, hless, hmore, hparen, hparen'⟩ := hspecial
  have hangles : s.anglesAfter c = s.angles := by simp [anglesAfter, hless, hmore]
  have hparens : s.parensAfter c = s.parens := by simp [parensAfter, hparen, hparen']
  rw [step_of_code hmode hquote (by simp [*]), addCode, hangles, hparens]
  rfl

theorem flush_add (s : Cutter) {c : Char} (hc : Text.isBlank c = true) :
    (s.add c).flush = { s.flush with last := c } := by
  have htrim : Text.trim (c :: s.buffer).reverse = Text.trim s.buffer.reverse := by
    rw [List.reverse_cons]
    exact Text.trim_append_of_blank (by simp [Text.blank, hc])
  simp only [flush, add, htrim, hc, Bool.not_true, Bool.false_and]
  split <;> rfl

theorem step_blank {s : Cutter} (hmode : s.mode = .code) (hnested : s.nested = false) {c : Char}
    (hc : Text.isBlank c = true) :
    (s.step c).mode = .code ∧ (s.step c).nested = false ∧ (s.step c).flush.done = s.flush.done := by
  by_cases hline : c = '\n'
  · have hstep : s.step '\n' = s.stepCode '\n' := by rw [step, hmode]
    rw [hline, hstep]
    refine ⟨mode_stepCode_newline hmode, ?_, s.done_flush_newline⟩
    rw [stepCode_newline hnested]
    exact s.nested_flush.trans hnested
  · rw [step_of_isBlank hmode hc hline, s.flush_add hc]
    exact ⟨hmode, hnested, rfl⟩

/-- What no blank changes is not changed by a text of blanks. -/
theorem run_of_step_blank {P : Cutter → Prop}
    (hstep : ∀ (s : Cutter) (c : Char), Text.isBlank c = true → P s → P (s.step c)) {b : Text}
    (hb : Text.blank b = true) {s : Cutter} (h : P s) : P (s.run b) := by
  induction b generalizing s with
  | nil => exact h
  | cons c b ih =>
    simp only [Text.blank, List.all_cons, Bool.and_eq_true] at hb
    exact ih hb.2 (hstep s c hb.1 h)

theorem run_blank {s : Cutter} (hmode : s.mode = .code) (hnested : s.nested = false) {b : Text}
    (hb : Text.blank b = true) :
    (s.run b).mode = .code ∧ (s.run b).nested = false ∧ (s.run b).flush.done = s.flush.done := by
  refine run_of_step_blank
    (P := fun r => r.mode = .code ∧ r.nested = false ∧ r.flush.done = s.flush.done) ?_ hb
    ⟨hmode, hnested, rfl⟩
  rintro r c hc ⟨hmode, hnested, hdone⟩
  rw [← hdone]
  exact step_blank hmode hnested hc

theorem step_brace {s : Cutter} (hmode : s.mode = .code) (hnested : s.nested = false) :
    s.step '\x7d' = s.closeBrace := by
  simp [step, hmode, stepCode, hnested, isQuoteMark]

/-! ## With comments and without -/

theorem Framed.flush_cons {old old' : List Segment} {s r : Cutter} (h : Framed old old' s r)
    {t : Text} (ht : Framed old old' (s.run t) (r.run t)) {segment : Segment}
    (hdone : (s.run t).flush.done = segment :: s.flush.done) :
    (r.run t).flush.done = segment :: r.flush.done := by
  obtain ⟨done, hs, hr⟩ := h.flush
  obtain ⟨done', hs', hr'⟩ := ht.flush
  rw [hs, hs', ← List.cons_append] at hdone
  rw [hr, hr', List.append_cancel_right hdone, List.cons_append]

/-- The pass `r` goes on as `s` does: what they have read differs in segments that no comment will
join. -/
def Abreast (s r : Cutter) : Prop :=
  ∃ n old old', Counted n s ∧ Framed old old' s r ∧ Shut n old ∧ Shut n old'

namespace Abreast

variable {s r : Cutter}

theorem refl (h : Counted 0 s) : Abreast s s :=
  ⟨0, [], [], h, ⟨s.done, by simp, by simp⟩, nofun, nofun⟩

theorem run (h : Abreast s r) (t : Text) : Abreast (s.run t) (r.run t) := by
  obtain ⟨n, old, old', hcounted, hframed, hold, hold'⟩ := h
  exact ⟨n, old, old', hcounted.run t, hframed.run hcounted hold hold' t, hold, hold'⟩

theorem flush_cons (h : Abreast s r) {t : Text} {segment : Segment}
    (hdone : (s.run t).flush.done = segment :: s.flush.done) :
    (r.run t).flush.done = segment :: r.flush.done := by
  obtain ⟨n, old, old', hcounted, hframed, hold, hold'⟩ := h
  exact hframed.flush_cons (hframed.run hcounted hold hold' t) hdone

theorem same (h : Abreast s r) : ∃ done, r = { s with done := done } := by
  obtain ⟨n, old, old', -, ⟨done, -, rfl⟩, -⟩ := h
  exact ⟨_, rfl⟩

/-- The line of a member, with the comment and without it. -/
theorem line (h : Abreast s r) {line : CodeLine} {segment : Segment} {m : Member}
    (hdone : (s.run line.code).flush.done = segment :: s.flush.done) (hmember : segment.IsMember m)
    (hcomment : ∀ comment ∈ line.comment, (s.run line.code).mode = .code ∧
      (s.run line.code).nested = false ∧ segment.line = (s.run line.code).line ∧
      '\n' ∉ comment)
    (hbrace : ∀ words ∈ line.words?, Text.endsWith '\x7b' words = false) :
    ∃ segment' : Segment,
      segment'.GivesMember (line.described { m with description := segment.doc }) ∧
      (s.run line.bare).flush.done = segment :: s.flush.done ∧
      (r.run line.ended).flush.done = segment' :: r.flush.done ∧
      Abreast (s.run line.bare) (r.run line.ended) := by
  obtain ⟨code, _ | comment⟩ := line
  · exact ⟨segment, hmember.commented .silent nofun, hdone, h.flush_cons hdone, h.run code⟩
  · obtain ⟨hmode, hnested, hline, hend⟩ := hcomment comment rfl
    obtain ⟨n, old, old', hcounted, hframed, hold, hold'⟩ := h.run code
    have hdone' := h.flush_cons hdone
    rw [run_bare, run_ended]
    generalize s.run code = a, r.run code = a' at *
    have hnewline : a.step '\n' = { a.flush with line := a.line + 1, last := '\n' } :=
      step_newline hmode hnested
    have hread : (a.step '\n').done = segment :: s.flush.done := by
      rw [hnewline]
      exact hdone
    have hempty : (a.step '\n').buffer = [] := by
      rw [hnewline]
      exact a.buffer_flush
    obtain ⟨since, -, hr⟩ := hframed.step hold hold' hcounted.after '\n'
    obtain ⟨hnext, hearlier⟩ := hcounted.nextLine hmode hnested
    rw [hread] at hearlier
    obtain ⟨done, -, rfl⟩ := hframed
    obtain ⟨segment', hcommented, hline', hstep⟩ :=
      exists_commented (s := { a with done := done ++ old' }) hmode hnested hdone'
        (fun _ => hline) hmember.takesComment code hend
    rw [hr] at hstep
    refine ⟨segment', hmember.commented hcommented hbrace, ?_, ?_, ?_⟩
    · rw [done_flush_of_empty hempty, hread]
    · rw [hstep]
      exact done_flush_of_empty hempty
    · refine ⟨a.line, segment :: s.flush.done, segment' :: r.flush.done, hnext, ⟨[], hread, hstep⟩,
        .of_lines hearlier, ?_⟩
      rintro last ⟨⟩ -
      rw [hline']
      exact hearlier segment List.mem_cons_self

/-- The lines of members. -/
theorem lines (h : Abreast s r) {lines : List CodeLine} {members : List (Segment × Member)}
    (hmembers : s.Members lines members)
    (hbrace : ∀ line ∈ lines, ∀ words ∈ line.words?, Text.endsWith '\x7b' words = false) :
    ∃ segments', List.Forall₂ Segment.GivesMember segments'
        (List.zipWith CodeLine.described lines
          (members.map fun p => { p.2 with description := p.1.doc })) ∧
      (s.run (lines.flatMap CodeLine.bare)).flush.done =
        (members.map Prod.fst).reverse ++ s.flush.done ∧
      (r.run (lines.flatMap CodeLine.ended)).flush.done = segments'.reverse ++ r.flush.done ∧
      Abreast (s.run (lines.flatMap CodeLine.bare)) (r.run (lines.flatMap CodeLine.ended)) := by
  induction lines generalizing s r members with
  | nil =>
    cases members with
    | nil => exact ⟨[], .nil, rfl, rfl, h⟩
    | cons p members => exact hmembers.elim
  | cons line lines ih =>
    cases members with
    | nil => exact hmembers.elim
    | cons p members =>
      obtain ⟨segment, m⟩ := p
      obtain ⟨hdone, hmember, hcomment, hrest⟩ := hmembers
      obtain ⟨hbrace, hbraces⟩ := List.forall_mem_cons.1 hbrace
      obtain ⟨segment', hgives, hs, hr, hnext⟩ := h.line hdone hmember hcomment hbrace
      obtain ⟨segments', hall, hs', hr', hlast⟩ := ih hnext hrest hbraces
      refine ⟨segment' :: segments', .cons hgives hall, ?_, ?_, ?_⟩
      · rw [List.flatMap_cons, run_append, hs', hs]
        simp
      · rw [List.flatMap_cons, run_append, hr', hr]
        simp
      · rw [List.flatMap_cons, List.flatMap_cons, run_append, run_append]
        exact hlast

/-- What follows a closing brace does not depend on what stands before the brace. -/
theorem brace (h : Abreast s r) (hmode : s.mode = .code) (hnested : s.nested = false) (t : Text) :
    ∃ (brace : Segment) (rest : List Segment), brace.text = ['\x7d'] ∧
      (s.run ('\x7d' :: t)).finish = s.flush.done.reverse ++ brace :: rest ∧
      (r.run ('\x7d' :: t)).finish = r.flush.done.reverse ++ brace :: rest := by
  obtain ⟨n, old, old', hcounted, hframed, -⟩ := h
  have hstep := step_brace hmode hnested
  have hstep' : r.step '\x7d' = r.closeBrace := by
    obtain ⟨done, -, rfl⟩ := id hframed
    exact step_brace hmode hnested
  have hclosed := hcounted.step '\x7d'
  rw [run_cons, run_cons, hstep, hstep']
  rw [hstep] at hclosed
  generalize hbrace : (⟨['\x7d'], s.flush.line, none⟩ : Segment) = brace
  have hshut : ∀ done, Shut n (brace :: done) := by
    rintro done last ⟨⟩ htakes
    rw [← hbrace] at htakes
    cases htakes
  have hboth : Framed (brace :: s.flush.done) (brace :: r.flush.done) s.closeBrace
      r.closeBrace := by
    obtain ⟨since, hs, hr⟩ := hframed.flush
    refine ⟨[], by rw [← hbrace]; rfl, ?_⟩
    unfold closeBrace
    dsimp only
    rw [hr, ← hbrace]
    rfl
  obtain ⟨rest, hs, hr⟩ := (hboth.run hclosed (hshut _) (hshut _) t).finish (hshut _) (hshut _)
    (hclosed.run t).after
  refine ⟨brace, rest, by rw [← hbrace], ?_, ?_⟩
  · rw [hs, List.reverse_cons, List.append_assoc, List.singleton_append]
  · rw [hr, List.reverse_cons, List.append_assoc, List.singleton_append]

theorem closed (h : Abreast s r) (hmode : s.mode = .code) (hnested : s.nested = false)
    {after : Text} (hafter : Text.lead? after = some '\x7d') :
    ∃ (brace : Segment) (rest : List Segment), brace.text = ['\x7d'] ∧
      (s.run after).finish = s.flush.done.reverse ++ brace :: rest ∧
      (r.run after).finish = r.flush.done.reverse ++ brace :: rest := by
  obtain ⟨-, b, t, rfl, hb⟩ := List.find?_eq_some_iff_append.1 hafter
  have hblank : Text.blank b = true := List.all_eq_true.2 fun c hc => by simpa using hb c hc
  obtain ⟨done, hr⟩ := h.same
  obtain ⟨hmode', hnested', hdone⟩ := run_blank hmode hnested hblank
  obtain ⟨-, -, hdone'⟩ := run_blank (s := r) (hr ▸ hmode) (hr ▸ hnested) hblank
  rw [run_append, run_append, ← hdone, ← hdone']
  exact (h.run b).brace hmode' hnested' t

end Abreast

end Cutter

end InterfaceForms

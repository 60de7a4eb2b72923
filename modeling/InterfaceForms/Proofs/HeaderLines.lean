import InterfaceForms.Proofs.Duplicates
import InterfaceForms.Proofs.EarlierLines

/-!
# The lines of headers

The pass that cuts a text counts lines, and a segment is of the line in which its first character
stands. A newline in a literal right after a backslash is read as one more character of the literal
and not counted; all others are, wherever they stand.

* `Cutter.line_run`: the line of the pass, for every text.
* `Cutter.Traced.run`: where the segments begin that begin with a letter, as every header does.
* `Source.line_of_scan`: the line of a declaration is that of the first character of its header.
-/

namespace InterfaceForms

/-! ## Lines that are counted -/

/-- The next character is read after a backslash. -/
def Mode.escaped : Mode → Bool
  | .escape _ => true
  | _ => false

namespace Cutter

/-- The newlines of a text that the pass reads right after a backslash in a literal. -/
def uncounted (s : Cutter) : Text → Nat
  | [] => 0
  | c :: t => (if s.mode.escaped && c = '\n' then 1 else 0) + (s.step c).uncounted t

theorem line_stepCode (s : Cutter) (c : Char) :
    (s.stepCode c).line = s.line + if c = '\n' then 1 else 0 := by
  have hbrace : ({ s with buffer := '\x7b' :: s.buffer } : Cutter).flush.line = s.line :=
    line_flush _
  unfold stepCode
  split
  · rename_i hquote
    have hc : c ≠ '\n' := by
      rintro rfl
      cases hquote
    rw [if_neg hc]
    rfl
  split
  · rename_i hslash
    rw [hslash, if_neg (by decide)]
    rfl
  split
  · split
    · rfl
    · rfl
  split
  · rename_i hopen
    rw [hopen, if_neg (by decide)]
    exact hbrace
  split
  · rename_i hclose
    rw [hclose, if_neg (by decide)]
    exact s.line_flush
  split
  · rename_i hsemicolon
    rw [hsemicolon, if_neg (by decide)]
    exact s.line_flush
  split
  · rfl
  · rfl

/-- A comment goes on with what is held. -/
theorem endLineComment_of_held {s : Cutter} (hheld : Text.blank s.buffer = false) (read : Text) :
    ∃ u, s.endLineComment read = { s with mode := .code, buffer := u ++ s.buffer } := by
  unfold endLineComment
  dsimp only
  rw [hheld]
  split
  · exact ⟨[], rfl⟩
  · exact ⟨_, rfl⟩

theorem line_endLineComment (s : Cutter) (read : Text) :
    (s.endLineComment read).line = s.line := by
  rcases s.endLineComment_cases read with ⟨_, -, heq⟩ | ⟨_, _, _, -, -, heq⟩ <;> rw [heq]

/-- One newline is counted, unless it is escaped. -/
theorem line_step (s : Cutter) (c : Char) :
    (s.step c).line + (if s.mode.escaped && c = '\n' then 1 else 0) =
      s.line + if c = '\n' then 1 else 0 := by
  unfold step
  split
  · rename_i hmode
    rw [hmode]
    exact s.line_stepCode c
  · rename_i hmode
    rw [hmode]
    split
    · rename_i hslash
      rw [hslash]
      rfl
    split
    · rename_i hstar
      rw [hstar]
      rfl
    · exact line_stepCode _ c
  · rename_i hmode
    rw [hmode]
    split
    · rfl
    split
    · rename_i hbackslash
      rw [hbackslash]
      rfl
    split
    · rfl
    · rfl
  · rename_i hmode
    rw [hmode]
    simp [Mode.escaped]
  · rename_i hmode
    rw [hmode]
    split
    · rename_i hnewline
      rw [line_stepCode, line_endLineComment, hnewline]
      rfl
    · rfl
  · rename_i hmode
    rw [hmode]
    split
    · rename_i hend
      simp only [Bool.and_eq_true, decide_eq_true_eq] at hend
      rw [hend.1]
      rfl
    · split <;> rfl

/-- The pass counts the newlines, but for those that are escaped. -/
theorem line_run (s : Cutter) (t : Text) :
    (s.run t).line + s.uncounted t = s.line + t.count '\n' := by
  induction t generalizing s with
  | nil => rfl
  | cons c t ih =>
    have hstep := s.line_step c
    have hrest := ih (s.step c)
    rw [run_cons, uncounted, List.count_cons]
    simp only [beq_iff_eq]
    omega

/-! ## Where segments begin -/

/-- After `before` the pass reads code, has read the segments `done`, last first, and holds nothing:
the next character that is not blank begins a segment. -/
structure Begins (before : Text) (done : List Segment) : Prop where
  mode : (start.run before).mode = .code
  buffer : Text.blank (start.run before).buffer = true
  done : (start.run before).done = done

/-- In the text the character `c` begins the segment after `done`, while the pass is on `line`. -/
def Origin (t : Text) (c : Char) (done : List Segment) (line : Nat) : Prop :=
  ∃ before after, t = before ++ c :: after ∧ Begins before done ∧ (start.run before).line = line

/-- Of segments, last first, each that begins with a word begins somewhere in the text, after the
others and on its line. -/
def Sited (t : Text) : List Segment → Prop
  | [] => True
  | s :: done =>
    s.text ≠ [] ∧
      (∀ c, s.text.head? = some c → isNameChar c = true → Origin t c done s.line) ∧ Sited t done

/-- The segments read begin in the text `t`, and so does what is held. -/
structure Traced (t : Text) (s : Cutter) : Prop where
  held : ∀ c, Text.lead? s.buffer.reverse = some c → isNameChar c = true →
    Origin t c s.done s.bufferLine
  done : Sited t s.done

theorem Origin.append {t : Text} {c : Char} {done : List Segment} {line : Nat}
    (h : Origin t c done line) (u : Text) : Origin (t ++ u) c done line := by
  obtain ⟨before, after, rfl, hbegins, hline⟩ := h
  exact ⟨before, after ++ u, by rw [List.append_assoc, List.cons_append], hbegins, hline⟩

theorem Sited.append {t : Text} {done : List Segment} (h : Sited t done) (u : Text) :
    Sited (t ++ u) done := by
  induction done with
  | nil => trivial
  | cons s done ih =>
    exact ⟨h.1, fun c hhead hc => (h.2.1 c hhead hc).append u, ih h.2.2⟩

/-- Every segment of sited ones that begins with a word begins after those before it. -/
theorem Sited.origin {t : Text} {later done : List Segment} {x : Segment}
    (h : Sited t (later ++ x :: done)) {c : Char} (hhead : x.text.head? = some c)
    (hc : isNameChar c = true) : Origin t c done x.line := by
  induction later with
  | nil => exact h.2.1 c hhead hc
  | cons _ later ih => exact ih h.2.2

theorem traced_start : Traced [] start := ⟨nofun, trivial⟩

namespace Traced

variable {t : Text} {s r : Cutter} {c : Char}

theorem append (h : Traced t s) (u : Text) : Traced (t ++ u) s :=
  ⟨fun c hlead hc => (h.held c hlead hc).append u, h.done.append u⟩

/-- Only the segments and what is held are traced. -/
theorem same (h : Traced t s) (hbuffer : r.buffer = s.buffer) (hline : r.bufferLine = s.bufferLine)
    (hdone : r.done = s.done) : Traced t r := by
  refine ⟨?_, hdone ▸ h.done⟩
  rw [hbuffer, hline, hdone]
  exact h.held

theorem empty (hbuffer : s.buffer = []) (hdone : Sited t s.done) : Traced t s :=
  ⟨fun _ hlead => (by rw [hbuffer] at hlead; cases hlead), hdone⟩

/-- More of a segment that has begun. -/
theorem push (h : Traced t s) (hheld : Text.blank s.buffer = false) {u : Text}
    (hbuffer : r.buffer = u ++ s.buffer) (hline : r.bufferLine = s.bufferLine)
    (hdone : r.done = s.done) : Traced t r := by
  refine ⟨?_, hdone ▸ h.done⟩
  rw [hbuffer, hline, hdone, lead?_push hheld]
  exact h.held

theorem flush (h : Traced t s) : Traced t s.flush := by
  refine .empty s.buffer_flush ?_
  cases hblank : Text.blank s.buffer with
  | true =>
    rw [flush_of_blank hblank]
    exact h.done
  | false =>
    rw [flush_of_held hblank]
    refine ⟨fun hnil => ?_, fun c hhead hc => ?_, h.done⟩
    · have hall := Text.trim_eq_nil.1 hnil
      rw [Text.blank, List.all_reverse] at hall
      exact absurd (hblank.symm.trans hall) Bool.false_ne_true
    · rw [Text.head?_trim] at hhead
      exact h.held c hhead hc

/-- A character is held; where it is the first one, it begins the segment. -/
theorem add (h : Traced t s)
    (hbegin : Text.blank s.buffer = true → isNameChar c = true → Origin t c s.done s.line) :
    Traced t (s.add c) := by
  cases hheld : Text.blank s.buffer with
  | false =>
    refine h.push (u := [c]) hheld rfl ?_ rfl
    simp [Cutter.add, hheld]
  | true =>
    have hrest : Text.lead? s.buffer.reverse = none :=
      Text.lead?_of_blank (by simpa [Text.blank] using hheld)
    refine ⟨fun d hlead hd => ?_, h.done⟩
    have hpush : (s.add c).buffer.reverse = s.buffer.reverse ++ [c] := List.reverse_cons
    rw [hpush, Text.lead?_append, hrest, Option.none_or] at hlead
    obtain rfl : c = d := List.mem_singleton.1 (List.mem_of_find?_eq_some hlead) |>.symm
    have hline : (s.add c).bufferLine = s.line := by
      simp [Cutter.add, hheld, Text.isBlank_of_isNameChar hd]
    rw [hline]
    exact hbegin hheld hd

theorem stepCode (h : Traced t s)
    (hbegin : Text.blank s.buffer = true → isNameChar c = true → Origin t c s.done s.line) :
    Traced t (s.stepCode c) := by
  have hbrace : Traced t { s with buffer := '{' :: s.buffer } := by
    cases hheld : Text.blank s.buffer with
    | false => exact h.push (u := ['{']) hheld rfl rfl rfl
    | true =>
      have hrest : Text.lead? s.buffer.reverse = none :=
        Text.lead?_of_blank (by simpa [Text.blank] using hheld)
      refine ⟨fun d hlead hd => ?_, h.done⟩
      rw [List.reverse_cons, Text.lead?_append, hrest, Option.none_or] at hlead
      obtain rfl : d = '{' := List.mem_singleton.1 (List.mem_of_find?_eq_some hlead)
      cases hd
  unfold Cutter.stepCode
  split
  · exact (h.add hbegin).same rfl rfl rfl
  split
  · exact h.same rfl rfl rfl
  split
  · split
    · cases hheld : Text.blank s.buffer with
      | false => exact h.push (u := [' ']) hheld rfl rfl rfl
      | true =>
        refine ⟨fun d hlead _ => ?_, h.done⟩
        rw [Text.lead?_of_blank] at hlead
        · cases hlead
        · simpa [Text.blank, Text.isBlank] using hheld
    · exact (h.add hbegin).same rfl rfl rfl
  split
  · exact hbrace.flush.same rfl rfl rfl
  split
  · refine .empty s.buffer_flush ⟨List.cons_ne_nil _ _, fun d hhead hd => ?_, h.flush.done⟩
    cases hhead
    cases hd
  split
  · exact h.flush.same rfl rfl rfl
  split
  · exact h.flush.same rfl rfl rfl
  · exact (h.add hbegin).same rfl rfl rfl

theorem endLineComment (h : Traced t s) (read : Text) : Traced t (s.endLineComment read) := by
  cases hheld : Text.blank s.buffer with
  | false =>
    obtain ⟨u, heq⟩ := endLineComment_of_held hheld read
    rw [heq]
    exact h.push hheld rfl rfl rfl
  | true =>
    rcases s.endLineComment_cases read with ⟨u, hu, heq⟩ | ⟨last, done, comment, hdone, -, heq⟩
    · obtain rfl := hu hheld
      rw [heq]
      exact h.same rfl rfl rfl
    · -- A comment that joins a segment changes nothing about how it begins.
      have hsited := h.done
      rw [hdone] at hsited
      obtain ⟨hne, horigin, hrest⟩ := hsited
      rw [heq]
      refine ⟨fun c hlead _ => ?_, ?_, ?_, hrest⟩
      · rw [Text.lead?_of_blank (by simpa [Text.blank] using hheld)] at hlead
        cases hlead
      · exact List.append_ne_nil_of_left_ne_nil hne _
      · intro c hhead hc
        rw [List.head?_append_of_ne_nil _ hne] at hhead
        exact horigin c hhead hc

/-- The next character is read after `t`. -/
theorem step (h : Traced t (start.run t)) (hclean : Clean (start.run t)) (c : Char) :
    Traced (t ++ [c]) ((start.run t).step c) := by
  have hnext := h.append [c]
  have hbegin : (start.run t).mode = .code → Text.blank (start.run t).buffer = true →
      isNameChar c = true → Origin (t ++ [c]) c (start.run t).done (start.run t).line :=
    fun hmode hblank _ => ⟨t, [], rfl, ⟨hmode, hblank, rfl⟩, rfl⟩
  generalize start.run t = s at hclean hnext hbegin
  unfold Cutter.step
  split
  · rename_i hmode
    exact hnext.stepCode (hbegin hmode)
  · split
    · exact hnext.same rfl rfl rfl
    split
    · exact hnext.same rfl rfl rfl
    · -- The slash is code, and what follows it begins no segment.
      have hcode : Traced (t ++ [c]) { s with mode := .code } := hnext.same rfl rfl rfl
      have hslash : Traced (t ++ [c]) (({ s with mode := .code } : Cutter).addCode '/') :=
        (hcode.add (c := '/') fun _ hc => by cases hc).same rfl rfl rfl
      exact hslash.stepCode fun hblank => by cases hblank
  · rename_i hmode
    have hheld := hclean.held_of_literal (.inl hmode)
    split
    · have hcode : Traced (t ++ [c]) { s with mode := .code, angles := 0, parens := 0 } :=
        hnext.same rfl rfl rfl
      exact hcode.flush.same rfl rfl rfl
    split
    · exact hnext.push (u := [c]) hheld rfl rfl rfl
    split
    · exact hnext.push (u := [c]) hheld rfl rfl rfl
    · exact hnext.push (u := [c]) hheld rfl rfl rfl
  · rename_i hmode
    exact hnext.push (u := [c]) (hclean.held_of_literal (.inr hmode)) rfl rfl rfl
  · split
    · rename_i hnewline
      subst hnewline
      exact (hnext.endLineComment _).stepCode fun _ hc => by cases hc
    · exact hnext.same rfl rfl rfl
  · split
    · exact hnext.same rfl rfl rfl
    · exact hnext.same rfl rfl rfl

theorem run (t : Text) : Traced t (start.run t) := by
  suffices h : Clean (start.run t) ∧ Traced t (start.run t) from h.2
  induction t using List.reverseRecOn with
  | nil => exact ⟨clean_start, traced_start⟩
  | append_singleton t c ih =>
    rw [run_append]
    exact ⟨ih.1.step c, ih.2.step ih.1 c⟩

theorem finish (h : Traced t s) : ∃ done, s.finish = done.reverse ∧ Sited t done := by
  unfold Cutter.finish
  dsimp only
  split
  · exact ⟨_, rfl, ((h.add (c := '/') fun _ hc => by cases hc).same
      (r := s.addCode '/') rfl rfl rfl).flush.done⟩
  · exact ⟨_, rfl, (h.endLineComment _).flush.done⟩
  · exact ⟨_, rfl, (h.same (r := s.endBlockComment _) rfl rfl rfl).flush.done⟩
  · exact ⟨_, rfl, h.flush.done⟩

end Traced

/-! ## A segment begins once -/

/-- The pass `r` holds what `s` does, with more behind it, or has read more segments. -/
def Keeps (s r : Cutter) : Prop :=
  s.done.length < r.done.length ∨
    r.done = s.done ∧ r.bufferLine = s.bufferLine ∧ Text.blank r.buffer = false

namespace Keeps

variable {s r q : Cutter}

theorem refl (hheld : Text.blank s.buffer = false) : Keeps s s := .inr ⟨rfl, rfl, hheld⟩

/-- What adds to the text that is held. -/
theorem push (h : Keeps s r) {u : Text} (hbuffer : q.buffer = u ++ r.buffer)
    (hdone : q.done = r.done)
    (hline : Text.blank r.buffer = false → q.bufferLine = r.bufferLine) : Keeps s q := by
  rw [Keeps, hdone, hbuffer]
  refine h.imp_right fun ⟨hread, hbegun, hheld⟩ => ⟨hread, ?_, blank_push hheld u⟩
  rw [hline hheld, hbegun]

theorem add (h : Keeps s r) (c : Char) : Keeps s (r.add c) :=
  h.push (u := [c]) rfl rfl fun hheld => by simp [Cutter.add, hheld]

theorem flush (h : Keeps s r) : s.done.length < r.flush.done.length := by
  cases hheld : Text.blank r.buffer with
  | true =>
    rw [flush_of_blank hheld]
    rcases h with h | ⟨-, -, h⟩
    · exact h
    · rw [hheld] at h
      cases h
  | false =>
    rw [flush_of_held hheld]
    refine Nat.lt_succ_of_le ?_
    rcases h with h | ⟨h, -, -⟩
    · exact Nat.le_of_lt h
    · exact Nat.le_of_eq (congrArg List.length h.symm)

theorem addCode (h : Keeps s r) (c : Char) : Keeps s (r.addCode c) :=
  (h.add c).push (u := []) rfl rfl fun _ => rfl

theorem stepCode (h : Keeps s r) (c : Char) : Keeps s (r.stepCode c) := by
  have hbrace : Keeps s { r with buffer := '\x7b' :: r.buffer } :=
    h.push (u := ['\x7b']) rfl rfl fun _ => rfl
  unfold Cutter.stepCode
  split
  · exact (h.add c).push (u := []) rfl rfl fun _ => rfl
  split
  · exact h.push (u := []) rfl rfl fun _ => rfl
  split
  · split
    · exact h.push (u := [' ']) rfl rfl fun _ => rfl
    · exact h.addCode c
  split
  · exact .inl hbrace.flush
  split
  · exact .inl (Nat.lt_succ_of_lt h.flush)
  split
  · exact .inl h.flush
  split
  · exact .inl h.flush
  · exact h.addCode c

theorem endLineComment (h : Keeps s r) (read : Text) : Keeps s (r.endLineComment read) := by
  rcases h with h | ⟨hdone, hline, hheld⟩
  · rcases r.endLineComment_cases read with ⟨_, -, heq⟩ | ⟨_, _, _, hlast, -, heq⟩
    · rw [heq]
      exact .inl h
    · rw [hlast] at h
      rw [heq]
      exact .inl h
  · obtain ⟨u, heq⟩ := endLineComment_of_held hheld read
    rw [heq]
    exact .inr ⟨hdone, hline, blank_push hheld u⟩

theorem step (h : Keeps s r) (c : Char) : Keeps s (r.step c) := by
  unfold Cutter.step
  split
  · exact h.stepCode c
  · split
    · exact h.push (u := []) rfl rfl fun _ => rfl
    split
    · exact h.push (u := []) rfl rfl fun _ => rfl
    · have hcode : Keeps s { r with mode := .code } := h.push (u := []) rfl rfl fun _ => rfl
      exact (hcode.addCode '/').stepCode c
  · split
    · have hcode : Keeps s { r with mode := .code, angles := 0, parens := 0 } :=
        h.push (u := []) rfl rfl fun _ => rfl
      exact .inl hcode.flush
    split
    · exact h.push (u := [c]) rfl rfl fun _ => rfl
    split
    · exact h.push (u := [c]) rfl rfl fun _ => rfl
    · exact h.push (u := [c]) rfl rfl fun _ => rfl
  · exact h.push (u := [c]) rfl rfl fun _ => rfl
  · split
    · exact (h.endLineComment _).stepCode c
    · exact h.push (u := []) rfl rfl fun _ => rfl
  · split
    · exact h.push (u := []) rfl rfl fun _ => rfl
    · exact h.push (u := []) rfl rfl fun _ => rfl

theorem run (h : Keeps s r) (t : Text) : Keeps s (r.run t) := by
  induction t generalizing r with
  | nil => exact h
  | cons c t ih => exact ih (h.step c)

end Keeps

/-- The character with which a segment begins is held. -/
theorem Begins.held {before : Text} {done : List Segment} (h : Begins before done) {c : Char}
    (hc : isNameChar c = true) : (start.run (before ++ [c])).done = done ∧
      Text.blank (start.run (before ++ [c])).buffer = false := by
  have hplain := isPlain_of_isNameChar hc
  rw [run_append, run_cons, run_nil,
    step_of_code h.mode (not_isQuoteMark_of_isPlain hplain) (special_of_isPlain hplain)]
  refine ⟨h.done, ?_⟩
  show Text.blank (c :: (start.run before).buffer) = false
  simp [Text.blank, Text.isBlank_of_isNameChar hc]

/-- Nothing but blanks stands between two places where the same segment begins, so there is only
one that is no blank. -/
theorem Begins.eq {t before before' after after' : Text} {c c' : Char} {done : List Segment}
    (h : Begins before done) (h' : Begins before' done) (ht : t = before ++ c :: after)
    (ht' : t = before' ++ c' :: after') (hc : isNameChar c = true) (hc' : isNameChar c' = true) :
    before = before' := by
  -- A shorter place is followed by a character that is held.
  have hshort : ∀ {before : Text} {m : Text} {c : Char}, Begins before done →
      Begins (before ++ c :: m) done → isNameChar c = true → False := by
    intro before m c h h' hc
    obtain ⟨hdone, hbegun⟩ := h.held hc
    have hkeeps := (Keeps.refl hbegun).run m
    rw [← run_append, List.append_assoc, List.singleton_append] at hkeeps
    rcases hkeeps with hlt | ⟨-, -, hheld⟩
    · rw [hdone, h'.done] at hlt
      exact Nat.lt_irrefl _ hlt
    · rw [h'.buffer] at hheld
      cases hheld
  rcases List.append_eq_append_iff.1 (ht.symm.trans ht') with ⟨m, rfl, hm⟩ | ⟨m, rfl, hm⟩
  · cases m with
    | nil => rw [List.append_nil]
    | cons d m =>
      obtain rfl := (List.cons.inj hm).1
      exact (hshort h h' hc).elim
  · cases m with
    | nil => rw [List.append_nil]
    | cons d m =>
      obtain rfl := (List.cons.inj hm).1
      exact (hshort h' h hc').elim

end Cutter

/-! ## Headers -/

namespace Header

theorem head?_of_dropWord? {w t rest : Text} (hw : w ≠ []) (h : Text.dropWord? w t = some rest) :
    t.head? = w.head? := by
  unfold Text.dropWord? at h
  split at h
  · rename_i hdrop
    rw [Text.dropStart?_eq_some.1 hdrop, List.head?_append_of_ne_nil _ hw]
  · cases h

/-- A header begins with the first of its words. -/
theorem exists_head {t : Text} {header : Header} (h : ofLine? t = some header) :
    ∃ c, t.head? = some c ∧ isNameChar c = true := by
  have hword : ∀ {w t rest : Text}, w.head?.any isNameChar = true →
      Text.dropWord? w t = some rest → ∃ c, t.head? = some c ∧ isNameChar c = true := by
    intro w t rest hw hdrop
    cases w with
    | nil => cases hw
    | cons c w => exact ⟨c, head?_of_dropWord? (List.cons_ne_nil c w) hdrop, by simpa using hw⟩
  simp only [ofLine?, Option.bind_eq_bind, Option.bind_eq_some_iff] at h
  obtain ⟨rest, hrest, -⟩ := h
  cases hexport : Text.dropWord? "export".toList t with
  | some u => exact hword (by decide) hexport
  | none =>
    rw [hexport, Option.getD_none] at hrest
    cases hdeclare : Text.dropWord? "declare".toList t with
    | some u => exact hword (by decide) hdeclare
    | none =>
      rw [hdeclare, Option.getD_none, Option.orElse_eq_orElse, Option.orElse_eq_or,
        Option.or_eq_some_iff] at hrest
      rcases hrest with hrest | ⟨-, hrest⟩
      · exact hword (by decide) hrest
      · exact hword (by decide) hrest

end Header

/-! ## The lines of declarations -/

theorem Segment.mem_headerNames_of_header {s : Segment} {header : Header}
    {earlier later : List Segment} (hs : Header.ofLine? s.text = some header) :
    header.name ∈ headerNames (earlier ++ s :: later) := by
  rw [headerNames_append, ← List.singleton_append, headerNames_append, headerNames_of_header hs]
  simp

/-- The last header with the name begins in the text after `before`: the pass begins there the
segment of that header. -/
def HeaderAt (t : Text) (name : Text) (before : Text) : Prop :=
  ∃ c after earlier s header later, t = before ++ c :: after ∧
    Segment.cut t = earlier ++ s :: later ∧ Header.ofLine? s.text = some header ∧
    header.name = name ∧ name ∉ Segment.headerNames later ∧ s.text.head? = some c ∧
    Cutter.Begins before earlier.reverse

namespace HeaderAt

variable {t name before before' : Text}

/-- The last header of a name begins in one place only. -/
theorem eq (h : HeaderAt t name before) (h' : HeaderAt t name before') : before = before' := by
  obtain ⟨c, after, earlier, s, header, later, ht, hcut, hs, hname, hlast, hc, hbegins⟩ := h
  obtain ⟨c', after', earlier', s', header', later', ht', hcut', hs', hname', hlast', hc',
    hbegins'⟩ := h'
  have hearlier : earlier = earlier' := by
    rcases List.append_eq_append_iff.1 (hcut.symm.trans hcut') with ⟨m, rfl, hm⟩ | ⟨m, rfl, hm⟩
    · cases m with
      | nil => rw [List.append_nil]
      | cons x m =>
        rw [(List.cons.inj hm).2, ← hname'] at hlast
        exact absurd (Segment.mem_headerNames_of_header hs') hlast
    · cases m with
      | nil => rw [List.append_nil]
      | cons x m =>
        rw [(List.cons.inj hm).2, ← hname] at hlast'
        exact absurd (Segment.mem_headerNames_of_header hs) hlast'
  subst hearlier
  have hword : ∀ {s : Segment} {header : Header} {c : Char},
      Header.ofLine? s.text = some header → s.text.head? = some c → isNameChar c = true := by
    intro s header c hs hc
    obtain ⟨d, hd, hname⟩ := Header.exists_head hs
    rw [hc] at hd
    exact Option.some.inj hd ▸ hname
  exact hbegins.eq hbegins' ht ht' (hword hs hc) (hword hs' hc')

end HeaderAt

namespace Section

theorem headerNames_of_body {body : List Segment}
    (hbody : ∀ x ∈ body, Header.ofLine? x.text = none) : Segment.headerNames body = [] := by
  rw [Segment.headerNames, List.filterMap_eq_nil_iff.2 hbody, List.map_nil]

theorem line_of_read {s : Section} {source : Source} (h : s.read.result = .ok source) :
    source.line = s.line := by
  rw [read_eq] at h
  obtain ⟨_, _, rfl⟩ := Logged.bind_pure_ok.1 h
  rfl

end Section

namespace Source

variable {policy : DuplicatePolicy} {t : Text}

/-- The pass stands on the line of a declaration when it comes to the last header of its name. -/
theorem exists_headerAt {kept : List Source} (h : (scan policy t).result = .ok kept)
    {source : Source} (hmem : source ∈ kept) :
    ∃ before, HeaderAt t source.name before ∧ source.line = (Cutter.start.run before).line := by
  obtain ⟨out, hout, rfl, -⟩ := scan_ok.1 h
  obtain ⟨hsource, -⟩ := List.mem_filter.1 hmem
  have hname : source.name ∈ Segment.headerNames (Segment.cut t) := by
    have hnames := names_of_collect hout
    rw [Section.map_name_ofSegments] at hnames
    rw [← List.mem_eraseDups, ← hnames]
    exact List.mem_map_of_mem hsource
  obtain ⟨s, header, body, hlast, hheader⟩ := Segment.exists_lastSection hname
  obtain ⟨found, hread, hfind⟩ := find?_of_lastSection hlast hout
  have hfound : found = source := by
    have heq : found.name = header.name := by simpa using List.find?_some hfind
    exact List.inj_on_of_nodup_map (nodup_names_of_collect hout) (List.mem_of_find?_eq_some hfind)
      hsource (heq.trans hheader)
  subst hfound
  obtain ⟨hs, hbody, earlier, rest, hcut, -, hrest⟩ := hlast
  obtain ⟨c, hc, hword⟩ := Header.exists_head hs
  obtain ⟨done, hfinish, hsited⟩ := (Cutter.Traced.run t).finish
  have hdone : done = (body ++ rest).reverse ++ s :: earlier.reverse := by
    rw [← List.reverse_reverse done, ← hfinish, ← Segment.cut, hcut, List.reverse_append,
      List.reverse_cons, List.append_assoc, List.singleton_append]
  rw [hdone] at hsited
  obtain ⟨before, after, ht, hbegins, hline⟩ := hsited.origin hc hword
  have hlater : header.name ∉ Segment.headerNames (body ++ rest) := by
    rw [Segment.headerNames_append, Section.headerNames_of_body hbody, List.nil_append]
    exact hrest
  refine ⟨before, ⟨c, after, earlier, s, header, body ++ rest, ht, hcut, hs, hheader, ?_, hc,
    hbegins⟩, ?_⟩
  · rw [← hheader]
    exact hlater
  · rw [Section.line_of_read hread, hline]

/-- The header of a declaration begins in one place, and the declaration is of the line of that
place: of the first one and one more for each newline before, but for newlines in literals right
after a backslash. -/
theorem line_of_scan {kept : List Source} (h : (scan policy t).result = .ok kept)
    {source : Source} (hmem : source ∈ kept) :
    (∃! before, HeaderAt t source.name before) ∧
      ∀ before, HeaderAt t source.name before →
        source.line + Cutter.start.uncounted before = 1 + before.count '\n' := by
  obtain ⟨before, hbefore, hline⟩ := exists_headerAt h hmem
  refine ⟨⟨before, hbefore, fun _ hother => hother.eq hbefore⟩, fun other hother => ?_⟩
  rw [hother.eq hbefore, hline]
  exact Cutter.start.line_run before

/-- A block comment of two lines, brackets over two lines, an escaped mark, a literal that is never
closed, and a name declared twice. -/
def layoutText : Text :=
  ("/* a\nb */ type M = Record<string,\n number>\n'it\\'s\ninterface A \x7b\n\x7d\n" ++
    "/ 'x\n  export interface A \x7b\n\x7d\n").toList

def layoutSources : List Source :=
  [⟨"M".toList, 2, .alias "Record<string,  number>".toList⟩, ⟨"A".toList, 8, .block []⟩]

theorem line_of_scan_layoutText :
    (scan .lastWins layoutText).result = .ok layoutSources ∧
    ⟨"A".toList, 8, .block []⟩ ∈ layoutSources ∧
    (∃! before, HeaderAt layoutText "A".toList before) ∧
    ∀ before, HeaderAt layoutText "A".toList before →
      8 + Cutter.start.uncounted before = 1 + before.count '\n' := by
  have hscan : (scan .lastWins layoutText).result = .ok layoutSources := by decide +kernel
  have hmem : ⟨"A".toList, 8, .block []⟩ ∈ layoutSources := by decide +kernel
  exact ⟨hscan, hmem, line_of_scan hscan hmem⟩

/-- A newline after a backslash in a literal before a header. -/
def escapedText : Text := "'\\\n'\ninterface A \x7b\n\x7d\n".toList

/-- Two newlines stand before the header, but the declaration is of the second line: the pass counts
no newline after a backslash. -/
theorem line_of_escapedText :
    (scan .reject escapedText).result = .ok [⟨"A".toList, 2, .block []⟩] ∧
    HeaderAt escapedText "A".toList "'\\\n'\n".toList ∧
    1 + "'\\\n'\n".toList.count '\n' = 3 := by
  refine ⟨by decide +kernel, ?_, by decide⟩
  refine ⟨'i', "nterface A \x7b\n\x7d\n".toList, [⟨"'\\\n'".toList, 1, none⟩],
    ⟨"interface A \x7b".toList, 2, none⟩, ⟨"A".toList, ['\x7b']⟩, [⟨['\x7d'], 3, none⟩],
    by decide, by decide +kernel, by decide +kernel, rfl, by decide +kernel, rfl, ?_⟩
  exact ⟨by decide +kernel, by decide +kernel, by decide +kernel⟩

end Source

end InterfaceForms

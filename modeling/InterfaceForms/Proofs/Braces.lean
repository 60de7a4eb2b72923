import InterfaceForms.Proofs.Solid
import InterfaceForms.Segment
import Mathlib.Data.List.Forall2

/-!
# Braces of a text

The braces of a text are those that stand outside literals, comments and open `<` and `(`. An
opening brace ends its segment, and a closing brace is a segment of its own. How a segment ends is
told by the characters, and only nearly by its own text: a literal that is never closed may end in
an opening brace that opens nothing.

* `Segment.endings`: how the segments of a text end.
* `Segment.fits_endings`: what the texts of the segments say about that.
-/

namespace InterfaceForms

/-- How a segment ends. -/
inductive Ending
  /-- In an opening brace. -/
  | opening
  /-- The segment is a closing brace. -/
  | closing
  /-- At the end of its line, or before what follows on the line. -/
  | line
  deriving DecidableEq, Repr

/-! ## The endings of the segments -/

namespace Cutter

/-- A brace that is read next stands outside literals, comments and open `<` and `(`. -/
def bare (s : Cutter) : Bool := (s.mode = .code || s.mode = .slash) && !s.nested

/-- The endings of the segments that the next character completes. -/
def endings (s : Cutter) (c : Char) : List Ending :=
  let completed := (s.step c).done.length - s.done.length
  if s.bare && c = '\x7b' then [.opening]
  else if s.bare && c = '\x7d' then List.replicate (completed - 1) .line ++ [.closing]
  else List.replicate completed .line

/-- The endings of the segments that the text completes, with its end. -/
def endingsOf (s : Cutter) : Text → List Ending
  | [] => List.replicate (s.finish.length - s.done.length) .line
  | c :: t => s.endings c ++ (s.step c).endingsOf t

end Cutter

/-- How the segments of a text end. -/
def Segment.endings (t : Text) : List Ending := Cutter.start.endingsOf t

/-- What the text of a segment says about its ending. -/
def Segment.Fits (s : Segment) : Ending → Prop
  | .opening => Text.endsWith '\x7b' s.text = true
  | .closing => s.text = ['\x7d']
  | .line => s.text ≠ ['\x7d']

/-! ## The first character -/

namespace Text

/-- The first character that is not blank. -/
def lead? (t : Text) : Option Char := t.find? fun c => !isBlank c

theorem lead?_append (t u : Text) : lead? (t ++ u) = (lead? t).or (lead? u) := List.find?_append

theorem lead?_of_blank {t : Text} (h : blank t = true) : lead? t = none := by
  simpa [lead?, blank] using h

theorem isSome_lead? {t : Text} (h : blank t = false) : (lead? t).isSome = true := by
  simpa [lead?, blank] using h

theorem head?_trim (t : Text) : (trim t).head? = lead? t := by
  induction t with
  | nil => rfl
  | cons d t ih =>
    cases hd : isBlank d with
    | true =>
      have hblank : blank [d] = true := by simp [blank, hd]
      have htrim : trim (d :: t) = trim t := trim_append hblank t
      have hlead : lead? (d :: t) = lead? t := by simp [lead?, hd]
      rw [htrim, hlead, ih]
    | false =>
      have hstart : trimStart (d :: t) = d :: t := by simp [trimStart, hd]
      have hend : ∃ v, trimEnd (d :: t) = d :: v := by
        rw [trimEnd, dropEndWhile, List.reverse_cons, List.dropWhile_append]
        split
        · exact ⟨[], by simp [hd]⟩
        · exact ⟨trimEnd t, by simp [trimEnd, dropEndWhile]⟩
      obtain ⟨v, hv⟩ := hend
      rw [trim, hstart, hv]
      simp [lead?, hd]

theorem trim_eq_nil {t : Text} : trim t = [] ↔ blank t = true := by
  rw [← List.head?_eq_none_iff, head?_trim]
  simp [lead?, blank]

theorem endsWith_dropWhile {p : Char → Bool} {c : Char} (hp : p c = false) {t : Text}
    (h : endsWith c t = true) : endsWith c (t.dropWhile p) = true := by
  induction t with
  | nil => exact h
  | cons d t ih =>
    rw [List.dropWhile_cons]
    split
    · rename_i hd
      cases t with
      | nil =>
        obtain rfl : d = c := by simpa [endsWith] using h
        rw [hp] at hd
        cases hd
      | cons d' t => exact ih (by simpa [endsWith] using h)
    · exact h

theorem endsWith_trim {c : Char} (hc : isBlank c = false) {t : Text} (h : endsWith c t = true) :
    endsWith c (trim t) = true := by
  have hstart := endsWith_dropWhile hc h
  obtain ⟨u, hu⟩ : ∃ u, t.dropWhile isBlank = u ++ [c] :=
    List.getLast?_eq_some_iff.1 (by simpa [endsWith] using hstart)
  have hend : trimEnd (u ++ [c]) = u ++ [c] := by simp [trimEnd, dropEndWhile, hc]
  rw [trim, trimStart, hu, hend]
  simp [endsWith]

end Text

/-! ## What may be held -/

namespace Cutter

/-- No segment begins with a closing brace, since a brace is held only inside a literal or brackets,
and these are held before it. Either nothing is held, and the pass is in no literal and in no
brackets, or what is held begins with another character. -/
inductive Clean (s : Cutter) : Prop
  | free (hbuffer : Text.blank s.buffer = true) (hnested : s.nested = false)
    (hmode : ∀ mark, s.mode ≠ .literal mark ∧ s.mode ≠ .escape mark)
  | held (hbuffer : Text.blank s.buffer = false)
    (hlead : Text.lead? s.buffer.reverse ≠ some '\x7d')

theorem clean_start : Clean start := .free rfl rfl fun _ => ⟨nofun, nofun⟩

theorem blank_push {b : Text} (h : Text.blank b = false) (t : Text) :
    Text.blank (t ++ b) = false := by
  simp only [Text.blank, List.all_append, Bool.and_eq_false_iff] at h ⊢
  exact .inr h

theorem lead?_push {b : Text} (h : Text.blank b = false) (t : Text) :
    Text.lead? (t ++ b).reverse = Text.lead? b.reverse := by
  have hblank : Text.blank b.reverse = false := by
    simpa [Text.blank] using h
  rw [List.reverse_append, Text.lead?_append, Option.or_of_isSome (Text.isSome_lead? hblank)]

namespace Clean

variable {s r : Cutter}

theorem lead (h : Clean s) : Text.lead? s.buffer.reverse ≠ some '\x7d' := by
  cases h with
  | free hbuffer _ _ =>
    rw [Text.lead?_of_blank (by simpa [Text.blank] using hbuffer)]
    exact (Option.some_ne_none _).symm
  | held _ hlead => exact hlead

/-- A literal is held from its first mark on. -/
theorem held_of_literal (h : Clean s) {mark : Char}
    (hmode : s.mode = .literal mark ∨ s.mode = .escape mark) : Text.blank s.buffer = false := by
  cases h with
  | free _ _ hnone => exact absurd hmode (not_or.2 (hnone mark))
  | held hbuffer _ => exact hbuffer

/-- More is held after something is. -/
theorem push (hbuffer : Text.blank s.buffer = false)
    (hlead : Text.lead? s.buffer.reverse ≠ some '\x7d') {t : Text}
    (hr : r.buffer = t ++ s.buffer) : Clean r :=
  .held (hr ▸ blank_push hbuffer t) (by rwa [hr, lead?_push hbuffer])

/-- A character begins what is held. -/
theorem begin (hbuffer : Text.blank s.buffer = true) {c : Char} (hblank : Text.isBlank c = false)
    (hc : c ≠ '\x7d') (hr : r.buffer = c :: s.buffer) : Clean r := by
  refine .held ?_ ?_
  · simp [hr, Text.blank, hblank]
  · have hrest : Text.lead? s.buffer.reverse = none :=
      Text.lead?_of_blank (by simpa [Text.blank] using hbuffer)
    rw [hr, List.reverse_cons, Text.lead?_append, hrest]
    simpa [Text.lead?, hblank] using hc

/-- A character that is neither blank nor a closing brace is held in every state. -/
theorem sign (h : Clean s) {c : Char} (hblank : Text.isBlank c = false) (hc : c ≠ '\x7d')
    (hr : r.buffer = c :: s.buffer) : Clean r := by
  cases h with
  | free hbuffer _ _ => exact begin hbuffer hblank hc hr
  | held hbuffer hlead => exact push hbuffer hlead (t := [c]) hr

/-- The end of a segment leaves nothing behind. -/
theorem empty (hbuffer : s.buffer = []) (hnested : s.nested = false)
    (hmode : ∀ mark, s.mode ≠ .literal mark ∧ s.mode ≠ .escape mark) : Clean s :=
  .free (by rw [hbuffer]; rfl) hnested hmode

/-- Only the buffer counts where something is held. -/
theorem same (h : Clean s) (hbuffer : r.buffer = s.buffer) (hnested : r.nested = s.nested)
    (hmode : ∀ mark, r.mode ≠ .literal mark ∧ r.mode ≠ .escape mark) : Clean r := by
  cases h with
  | free hblank hopen _ => exact .free (hbuffer ▸ hblank) (hnested ▸ hopen) hmode
  | held hblank hlead => exact .held (hbuffer ▸ hblank) (hbuffer ▸ hlead)

theorem addCode (h : Clean s) {c : Char} (hc : c = '\x7d' → s.nested = true) :
    Clean (s.addCode c) := by
  cases h with
  | held hbuffer hlead => exact push hbuffer hlead (t := [c]) rfl
  | free hbuffer hnested hmode =>
    cases hblank : Text.isBlank c with
    | false =>
      refine begin hbuffer hblank ?_ rfl
      intro hbrace
      rw [hc hbrace] at hnested
      cases hnested
    | true =>
      -- A blank opens no bracket.
      have hne : ∀ d : Char, Text.isBlank d = false → c ≠ d := by
        rintro d hd rfl
        rw [hd] at hblank
        cases hblank
      refine .free ?_ ?_ hmode
      · show Text.blank (c :: s.buffer) = true
        simp only [Text.blank, List.all_cons, hblank, Bool.true_and] at hbuffer ⊢
        exact hbuffer
      · have hangles : s.anglesAfter c = s.angles := by
          simp [anglesAfter, hne '<' (by decide), hne '>' (by decide)]
        have hparens : s.parensAfter c = s.parens := by
          simp [parensAfter, hne '(' (by decide), hne ')' (by decide)]
        simpa [Cutter.nested, Cutter.addCode, hangles, hparens, add] using hnested

end Clean

theorem buffer_flush (s : Cutter) : s.flush.buffer = [] := by
  unfold flush
  dsimp only
  split <;> rfl

theorem mode_flush (s : Cutter) : s.flush.mode = s.mode := by
  unfold flush
  dsimp only
  split <;> rfl

theorem nested_flush (s : Cutter) : s.flush.nested = s.nested := by
  unfold flush
  dsimp only
  split <;> rfl

/-- The comment at the end of a line goes on with what is held, or else joins a segment that takes
it, or is dropped. -/
theorem endLineComment_cases (s : Cutter) (read : Text) :
    (∃ t, (Text.blank s.buffer = true → t = []) ∧
      s.endLineComment read = { s with mode := .code, buffer := t ++ s.buffer }) ∨
    ∃ last done comment, s.done = last :: done ∧ last.takesComment = true ∧
      s.endLineComment read =
        { s with
          mode := .code
          done := { last with text := last.text ++ (" // ".toList ++ comment) } :: done } := by
  have hdrop : ∃ t, (Text.blank s.buffer = true → t = []) ∧
      ({ s with mode := .code } : Cutter) = { s with mode := .code, buffer := t ++ s.buffer } :=
    ⟨[], fun _ => rfl, rfl⟩
  unfold endLineComment
  dsimp only
  split
  · exact .inl hdrop
  split
  · rename_i hbuffer
    refine .inl ⟨_, fun hblank => ?_, rfl⟩
    rw [hblank] at hbuffer
    cases hbuffer
  split
  · rename_i last done hdone
    split
    · rename_i htakes
      simp only [Bool.and_eq_true] at htakes
      exact .inr ⟨last, done, _, hdone, htakes.2, rfl⟩
    · exact .inl hdrop
  · exact .inl hdrop

theorem mode_endLineComment (s : Cutter) (read : Text) : (s.endLineComment read).mode = .code := by
  rcases s.endLineComment_cases read with ⟨t, -, heq⟩ | ⟨_, _, _, -, -, heq⟩ <;> rw [heq]

namespace Clean

variable {s : Cutter}

theorem stepCode (h : Clean s) (hmode : s.mode = .code) (c : Char) : Clean (s.stepCode c) := by
  have hcode : ∀ {r : Cutter}, r.mode = .code →
      ∀ mark, r.mode ≠ .literal mark ∧ r.mode ≠ .escape mark := by
    intro r hr mark
    rw [hr]
    exact ⟨nofun, nofun⟩
  unfold Cutter.stepCode
  by_cases hquote : isQuoteMark c = true
  · have hc : Text.isBlank c = false ∧ c ≠ '\x7d' := by
      simp only [isQuoteMark, Bool.or_eq_true, decide_eq_true_eq] at hquote
      rcases hquote with (rfl | rfl) | rfl <;> decide
    rw [if_pos hquote]
    exact h.sign hc.1 hc.2 rfl
  rw [if_neg hquote]
  by_cases hslash : c = '/'
  · rw [if_pos hslash]
    exact h.same rfl rfl fun _ => ⟨nofun, nofun⟩
  rw [if_neg hslash]
  cases hnested : s.nested with
  | true =>
    rw [if_pos rfl]
    split
    · cases h with
      | free _ hfree _ =>
        rw [hfree] at hnested
        cases hnested
      | held hbuffer hlead => exact push hbuffer hlead (t := [' ']) rfl
    · exact h.addCode fun _ => hnested
  | false =>
    rw [if_neg (by decide)]
    have hend : ∀ r : Cutter, r.mode = .code → r.nested = false → Clean r.flush := by
      intro r hr hopen
      exact empty r.buffer_flush (r.nested_flush ▸ hopen) (hcode (r.mode_flush.trans hr))
    have hkeep : ∀ r : Cutter, r.mode = .code → r.nested = false → ∀ r' : Cutter,
        r'.mode = r.flush.mode → r'.buffer = r.flush.buffer → r'.nested = r.flush.nested →
        Clean r' := by
      intro r hr hopen r' hm hb hn
      exact (hend r hr hopen).same hb hn (hcode (hm.trans (r.mode_flush.trans hr)))
    split
    · exact hkeep { s with buffer := '\x7b' :: s.buffer } hmode hnested _ rfl rfl rfl
    split
    · exact hkeep s hmode hnested _ rfl rfl rfl
    split
    · exact hkeep s hmode hnested _ rfl rfl rfl
    split
    · exact hkeep s hmode hnested _ rfl rfl rfl
    · rename_i hbrace _ _
      exact h.addCode fun hc => absurd hc hbrace

theorem endLineComment (h : Clean s) (read : Text) : Clean (s.endLineComment read) := by
  rcases s.endLineComment_cases read with ⟨t, ht, heq⟩ | ⟨last, done, comment, -, -, heq⟩
  · rw [heq]
    cases hbuffer : Text.blank s.buffer with
    | true =>
      obtain rfl := ht hbuffer
      exact h.same rfl rfl fun _ => ⟨nofun, nofun⟩
    | false => exact push hbuffer h.lead rfl
  · rw [heq]
    exact h.same rfl rfl fun _ => ⟨nofun, nofun⟩

theorem step (h : Clean s) (c : Char) : Clean (s.step c) := by
  have hcode : Clean { s with mode := .code } := h.same rfl rfl fun _ => ⟨nofun, nofun⟩
  unfold Cutter.step
  split
  · rename_i hmode
    exact h.stepCode hmode c
  · split
    · exact h.same rfl rfl fun _ => ⟨nofun, nofun⟩
    split
    · exact h.same rfl rfl fun _ => ⟨nofun, nofun⟩
    · exact (hcode.addCode (c := '/') nofun).stepCode rfl c
  · rename_i mark hmode
    have hbuffer := h.held_of_literal (.inl hmode)
    split
    · -- A literal that the line ends takes the open brackets with it.
      set r : Cutter := { s with mode := .code, angles := 0, parens := 0 }
      refine empty r.buffer_flush r.nested_flush fun mark => ?_
      have hr : r.flush.mode = .code := r.mode_flush
      show r.flush.mode ≠ _ ∧ r.flush.mode ≠ _
      rw [hr]
      exact ⟨nofun, nofun⟩
    split
    · exact push hbuffer h.lead (t := [c]) rfl
    split
    · exact push hbuffer h.lead (t := [c]) rfl
    · exact push hbuffer h.lead (t := [c]) rfl
  · rename_i mark hmode
    exact push (h.held_of_literal (.inr hmode)) h.lead (t := [c]) rfl
  · rename_i read _
    split
    · exact (h.endLineComment read).stepCode (s.mode_endLineComment read) c
    · exact h.same rfl rfl fun _ => ⟨nofun, nofun⟩
  · split
    · exact h.same rfl rfl fun _ => ⟨nofun, nofun⟩
    · exact h.same rfl rfl fun _ => ⟨nofun, nofun⟩

end Clean

end Cutter

/-! ## What the segments say -/

theorem Segment.takesComment_ne {s : Segment} (h : s.takesComment = true) : s.text ≠ ['\x7d'] := by
  simp only [takesComment, Bool.and_eq_true, decide_eq_true_eq] at h
  exact h.1

/-- Only segments that end with their lines are read from `done` to `done'`. -/
structure Cutter.Lines (done done' : List Segment) : Prop where
  length_le : done.length ≤ done'.length
  fits : ∀ old, List.Forall₂ Segment.Fits done old →
    List.Forall₂ Segment.Fits done' (List.replicate (done'.length - done.length) .line ++ old)

namespace Cutter

namespace Lines

variable {done done' done'' : List Segment} {s : Segment}

theorem refl (done : List Segment) : Lines done done :=
  ⟨Nat.le_refl _, fun old h => by simpa using h⟩

theorem cons (hs : s.text ≠ ['\x7d']) (done : List Segment) : Lines done (s :: done) where
  length_le := Nat.le_succ _
  fits old h := by
    rw [List.length_cons, Nat.add_sub_cancel_left]
    exact .cons hs h

theorem trans (h : Lines done done') (h' : Lines done' done'') : Lines done done'' where
  length_le := Nat.le_trans h.length_le h'.length_le
  fits old hold := by
    have hall := h'.fits _ (h.fits old hold)
    have hlen : done''.length - done'.length + (done'.length - done.length) =
        done''.length - done.length := by
      have := h.length_le
      have := h'.length_le
      omega
    rwa [← List.append_assoc, List.replicate_append_replicate, hlen] at hall

/-- A comment does not change how its segment ends. -/
theorem comment (hs : s.takesComment = true) (done : List Segment) (comment : Text) :
    Lines (s :: done) ({ s with text := s.text ++ (" // ".toList ++ comment) } :: done) where
  length_le := Nat.le_refl _
  fits old h := by
    rw [List.length_cons, List.length_cons, Nat.sub_self]
    cases h with
    | @cons _ e _ old hhead htail =>
      refine .cons ?_ htail
      have hne := Segment.takesComment_ne hs
      cases e with
      | opening => simp_all [Segment.takesComment, Segment.Fits]
      | closing => exact absurd hhead hne
      | line =>
        intro heq
        have hlen := congrArg List.length heq
        simp at hlen
        omega

end Lines

theorem lines_flush {s : Cutter} (h : Text.lead? s.buffer.reverse ≠ some '\x7d') :
    Lines s.done s.flush.done := by
  unfold flush
  dsimp only
  cases htext : Text.trim s.buffer.reverse with
  | nil => exact .refl s.done
  | cons c u =>
    refine .cons ?_ s.done
    rintro htail
    have hlead := Text.head?_trim s.buffer.reverse
    rw [htext, (List.cons.inj htail).1] at hlead
    exact h hlead.symm

theorem lines_endLineComment (s : Cutter) (read : Text) :
    Lines s.done (s.endLineComment read).done := by
  rcases s.endLineComment_cases read with ⟨_, -, heq⟩ | ⟨last, done, comment, hdone, htakes, heq⟩
  · rw [heq]
    exact .refl s.done
  · rw [heq, hdone]
    exact .comment htakes done comment

namespace Clean

variable {s : Cutter}

theorem lines_stepCode (h : Clean s) {c : Char}
    (hc : s.nested = false → c ≠ '\x7b' ∧ c ≠ '\x7d') : Lines s.done (s.stepCode c).done := by
  unfold Cutter.stepCode
  split
  · exact .refl s.done
  split
  · exact .refl s.done
  cases hnested : s.nested with
  | true =>
    rw [if_pos rfl]
    split
    · exact .refl s.done
    · exact .refl s.done
  | false =>
    obtain ⟨hopen, hclose⟩ := hc hnested
    rw [if_neg (by decide), if_neg hopen, if_neg hclose]
    split
    · exact lines_flush h.lead
    split
    · exact lines_flush h.lead
    · exact .refl s.done

theorem lines_step (h : Clean s) {c : Char}
    (hc : s.bare = true → c ≠ '\x7b' ∧ c ≠ '\x7d') : Lines s.done (s.step c).done := by
  have hcode : Clean { s with mode := .code } := h.same rfl rfl fun _ => ⟨nofun, nofun⟩
  unfold Cutter.step
  split
  · rename_i hmode
    exact h.lines_stepCode fun hnested => hc (by simp [bare, hmode, hnested])
  · rename_i hmode
    split
    · exact .refl s.done
    split
    · exact .refl s.done
    · refine (hcode.addCode (c := '/') nofun).lines_stepCode fun hnested => hc ?_
      have hopen : s.nested = false := hnested
      simp [bare, hmode, hopen]
  · split
    · exact lines_flush (s := { s with mode := .code, angles := 0, parens := 0 }) h.lead
    split
    · exact .refl s.done
    split
    · exact .refl s.done
    · exact .refl s.done
  · exact .refl s.done
  · rename_i read _
    split
    · rename_i hnewline
      subst hnewline
      exact (lines_endLineComment s read).trans
        ((h.endLineComment read).lines_stepCode fun _ => by decide)
    · exact .refl s.done
  · split
    · exact .refl s.done
    · exact .refl s.done

/-- The end of the text ends a segment as the end of a line does. -/
theorem lines_finish (h : Clean s) : ∃ done, s.finish = done.reverse ∧ Lines s.done done := by
  unfold Cutter.finish
  dsimp only
  split
  · exact ⟨_, rfl, lines_flush (h.addCode (c := '/') nofun).lead⟩
  · rename_i read _
    exact ⟨_, rfl, (lines_endLineComment s read).trans (lines_flush (h.endLineComment read).lead)⟩
  · exact ⟨_, rfl, lines_flush (s := s.endBlockComment _) h.lead⟩
  · exact ⟨_, rfl, lines_flush h.lead⟩

/-- A bare brace is read as code; a slash before it is code as well. -/
theorem step_of_bare (h : Clean s) (hbare : s.bare = true) {c : Char}
    (hc : c = '\x7b' ∨ c = '\x7d') :
    ∃ r, s.step c = r.stepCode c ∧ Clean r ∧ r.done = s.done ∧ r.nested = false := by
  simp only [bare, Bool.and_eq_true, Bool.or_eq_true, decide_eq_true_eq,
    Bool.not_eq_true'] at hbare
  obtain ⟨hmode | hmode, hnested⟩ := hbare
  · exact ⟨s, by rw [Cutter.step, hmode], h, rfl, hnested⟩
  · have hcode : Clean { s with mode := .code } := h.same rfl rfl fun _ => ⟨nofun, nofun⟩
    refine ⟨_, ?_, hcode.addCode (c := '/') nofun, rfl, hnested⟩
    rcases hc with rfl | rfl <;> simp [Cutter.step, hmode]

/-- A bare opening brace ends its segment. -/
theorem step_opening (h : Clean s) (hbare : s.bare = true) :
    ∃ segment : Segment, (s.step '\x7b').done = segment :: s.done ∧ segment.Fits .opening := by
  obtain ⟨r, hstep, -, hdone, hnested⟩ := h.step_of_bare hbare (.inl rfl)
  have hopen : r.stepCode '\x7b' = r.openBrace := by simp [Cutter.stepCode, hnested, isQuoteMark]
  have hends : Text.endsWith '\x7b' (Text.trim ('\x7b' :: r.buffer).reverse) = true := by
    exact Text.endsWith_trim (by decide) (by simp [Text.endsWith])
  rw [hstep, hopen, ← hdone]
  unfold openBrace flush
  dsimp only
  split
  · rename_i htrim
    rw [htrim] at hends
    cases hends
  · exact ⟨_, rfl, hends⟩

/-- A bare closing brace ends what is held and is a segment of its own. -/
theorem step_closing (h : Clean s) (hbare : s.bare = true) :
    ∃ segment done, (s.step '\x7d').done = segment :: done ∧ segment.Fits .closing ∧
      Lines s.done done := by
  obtain ⟨r, hstep, hr, hdone, hnested⟩ := h.step_of_bare hbare (.inr rfl)
  have hclose : r.stepCode '\x7d' = r.closeBrace := by simp [Cutter.stepCode, hnested, isQuoteMark]
  rw [hstep, hclose, ← hdone]
  exact ⟨_, _, rfl, rfl, lines_flush hr.lead⟩

/-- The endings of the next character are those of the segments that it completes. -/
theorem fits_step (h : Clean s) (c : Char) {old : List Ending}
    (hold : List.Forall₂ Segment.Fits s.done old) :
    List.Forall₂ Segment.Fits (s.step c).done ((s.endings c).reverse ++ old) := by
  unfold Cutter.endings
  dsimp only
  split
  · rename_i hopen
    simp only [Bool.and_eq_true, decide_eq_true_eq] at hopen
    obtain ⟨hbare, rfl⟩ := hopen
    obtain ⟨segment, hdone, hfits⟩ := h.step_opening hbare
    rw [hdone]
    exact .cons hfits hold
  split
  · rename_i hclose
    simp only [Bool.and_eq_true, decide_eq_true_eq] at hclose
    obtain ⟨hbare, rfl⟩ := hclose
    obtain ⟨segment, done, hdone, hfits, hlines⟩ := h.step_closing hbare
    have hlen : (segment :: done).length - s.done.length - 1 = done.length - s.done.length := by
      rw [List.length_cons]
      omega
    rw [hdone, hlen, List.reverse_append, List.reverse_replicate]
    exact .cons hfits (hlines.fits old hold)
  · rename_i hopen hclose
    rw [List.reverse_replicate]
    refine (h.lines_step fun hbare => ?_).fits old hold
    simp only [hbare, Bool.true_and, decide_eq_true_eq] at hopen hclose
    exact ⟨hopen, hclose⟩

theorem fits_run (h : Clean s) (t : Text) {old : List Ending}
    (hold : List.Forall₂ Segment.Fits s.done old) :
    List.Forall₂ Segment.Fits (s.run t).finish (old.reverse ++ s.endingsOf t) := by
  induction t generalizing s old with
  | nil =>
    obtain ⟨done, hdone, hlines⟩ := h.lines_finish
    have hall := List.rel_reverse (hlines.fits old hold)
    rw [List.reverse_append, List.reverse_replicate] at hall
    simpa [Cutter.endingsOf, hdone] using hall
  | cons c t ih =>
    have hall := ih (h.step c) (h.fits_step c hold)
    simpa [Cutter.endingsOf] using hall

end Clean

end Cutter

/-- The texts of the segments say how they end, where no literal is left open. -/
theorem Segment.fits_endings (t : Text) : List.Forall₂ Segment.Fits (cut t) (endings t) :=
  Cutter.clean_start.fits_run t .nil

end InterfaceForms

import InterfaceForms.Proofs.TextOrder
import Mathlib.Data.List.Infix

/-!
# Line breaks

Outside literals, comments and brackets a newline and a semicolon end a segment in the same way.
They differ in the lines that are counted from there on, and of these nothing but the comments at
the ends of lines takes notice. So in a text without such comments one may stand for the other.

* `Cutter.unnumbered_step`: what a state reads next does not depend on its numbers of lines.
* `Source.scan_relaid`: the sources of a text whose lines are broken elsewhere.
-/

namespace InterfaceForms

/-! ## States without numbers of lines -/

/-- Inside the comment at the end of a line. -/
def Mode.inLineComment : Mode → Bool
  | .lineComment _ => true
  | _ => false

def Segment.unnumbered (s : Segment) : Segment := { s with line := 0 }

@[simp] theorem Segment.unnumbered_unnumbered (s : Segment) :
    s.unnumbered.unnumbered = s.unnumbered := rfl

@[simp] theorem Segment.content_unnumbered (s : Segment) : s.unnumbered.content = s.content := rfl

namespace Cutter

/-- A character read last, as far as it decides about the angle bracket after it. -/
def beforeAngle (c : Char) : Char := if inert c then '\x00' else c

theorem inert_beforeAngle (c : Char) : inert (beforeAngle c) = inert c := by
  unfold beforeAngle
  split
  · rename_i hc
    rw [hc]
    decide +kernel
  · rfl

@[simp] theorem beforeAngle_beforeAngle (c : Char) :
    beforeAngle (beforeAngle c) = beforeAngle c := by
  rw [beforeAngle, inert_beforeAngle]
  split
  · rename_i hc
    rw [beforeAngle, if_pos hc]
  · rfl

/-- What is known but for the numbers of lines. -/
def unnumbered (s : Cutter) : Cutter :=
  { s with
    done := s.done.map Segment.unnumbered
    bufferLine := 0
    line := 0
    last := beforeAngle s.last }

variable {s r : Cutter}

theorem nested_unnumbered (s : Cutter) : s.unnumbered.nested = s.nested := rfl

theorem anglesAfter_unnumbered (s : Cutter) (c : Char) :
    s.unnumbered.anglesAfter c = s.anglesAfter c := by
  unfold anglesAfter unnumbered beforeAngle
  dsimp only
  split
  · rename_i hlast
    have hnone : inert '\x00' = true := by decide +kernel
    simp only [inert, Bool.and_eq_true, Bool.not_eq_true', decide_eq_true_eq] at hlast hnone
    simp only [hlast.1, hnone.1, decide_eq_true hlast.2, decide_eq_true hnone.2]
  · rfl

theorem unnumbered_flush (s : Cutter) : s.flush.unnumbered = s.unnumbered.flush.unnumbered := by
  cases hblank : Text.blank s.buffer with
  | true =>
    rw [flush_of_blank hblank, flush_of_blank (s := s.unnumbered) hblank]
    simp [unnumbered]
  | false =>
    rw [flush_of_held hblank, flush_of_held (s := s.unnumbered) hblank]
    simp [unnumbered, Segment.unnumbered]

theorem unnumbered_add (s : Cutter) (c : Char) :
    (s.add c).unnumbered = (s.unnumbered.add c).unnumbered := by
  simp [unnumbered, add]

theorem unnumbered_addCode (s : Cutter) (c : Char) :
    (s.addCode c).unnumbered = (s.unnumbered.addCode c).unnumbered := by
  have hadd := s.unnumbered_add c
  unfold addCode
  rw [anglesAfter_unnumbered]
  exact congrArg (fun r : Cutter =>
    { r with angles := s.anglesAfter c, parens := s.parensAfter c }) hadd

theorem unnumbered_openBrace (s : Cutter) :
    s.openBrace.unnumbered = s.unnumbered.openBrace.unnumbered :=
  congrArg (fun r : Cutter => { r with last := beforeAngle '\x7b' })
    (unnumbered_flush { s with buffer := '\x7b' :: s.buffer })

theorem unnumbered_closeBrace (s : Cutter) :
    s.closeBrace.unnumbered = s.unnumbered.closeBrace.unnumbered :=
  congrArg (fun r : Cutter =>
    { r with
      done := ⟨['\x7d'], 0, none⟩ :: r.done
      doc := none
      last := beforeAngle '\x7d' }) s.unnumbered_flush

theorem unnumbered_stepCode (s : Cutter) (c : Char) :
    (s.stepCode c).unnumbered = (s.unnumbered.stepCode c).unnumbered := by
  have hlast := congrArg (fun r : Cutter => { r with last := beforeAngle c }) s.unnumbered_flush
  unfold stepCode
  rw [nested_unnumbered]
  split
  · exact congrArg (fun r : Cutter => { r with mode := .literal c }) (s.unnumbered_add c)
  split
  · simp [unnumbered]
  split
  · split
    · simp [unnumbered]
    · exact s.unnumbered_addCode c
  split
  · exact s.unnumbered_openBrace
  split
  · exact s.unnumbered_closeBrace
  split
  · exact hlast
  split
  · exact hlast
  · exact s.unnumbered_addCode c

theorem unnumbered_endBlockComment (s : Cutter) (body : Text) :
    (s.endBlockComment body).unnumbered = (s.unnumbered.endBlockComment body).unnumbered := by
  simp [unnumbered, endBlockComment]

/-- What is read next outside a comment at the end of a line does not depend on the numbers of
lines. -/
theorem unnumbered_step {s : Cutter} (h : s.mode.inLineComment = false) (c : Char) :
    (s.step c).unnumbered = (s.unnumbered.step c).unnumbered := by
  unfold step
  have hmode : s.unnumbered.mode = s.mode := rfl
  rw [hmode]
  split
  · exact s.unnumbered_stepCode c
  · split
    · simp [unnumbered]
    split
    · simp [unnumbered]
    · have hslash := unnumbered_addCode { s with mode := .code } '/'
      rw [unnumbered_stepCode, hslash]
      exact (unnumbered_stepCode _ c).symm
  · split
    · exact congrArg (fun r : Cutter => { r with line := 0 })
        (unnumbered_flush { s with mode := .code, angles := 0, parens := 0 })
    split
    · simp [unnumbered]
    split
    · simp [unnumbered]
    · simp [unnumbered]
  · simp [unnumbered]
  · rename_i hcomment
    rw [hcomment] at h
    cases h
  · split
    · exact s.unnumbered_endBlockComment _
    · simp [unnumbered]

theorem content_unnumbered (done : List Segment) :
    (done.map Segment.unnumbered).map Segment.content = done.map Segment.content := by
  rw [List.map_map]
  rfl

/-- Nor does what the segments say at the end of the text. -/
theorem content_finish_unnumbered {s : Cutter} (h : s.mode.inLineComment = false) :
    s.unnumbered.finish.map Segment.content = s.finish.map Segment.content := by
  have hflush : ∀ {s r : Cutter}, s.unnumbered = r.unnumbered →
      s.flush.done.reverse.map Segment.content = r.flush.done.reverse.map Segment.content := by
    intro s r h
    have hdone : s.flush.unnumbered = r.flush.unnumbered := by
      rw [unnumbered_flush s, h, ← unnumbered_flush]
    rw [List.map_reverse, List.map_reverse, ← content_unnumbered, ← content_unnumbered r.flush.done]
    exact congrArg (fun s : Cutter => (s.done.map Segment.content).reverse) hdone
  unfold finish
  have hmode : s.unnumbered.mode = s.mode := rfl
  have hself : s.unnumbered.unnumbered = s.unnumbered := by simp [unnumbered]
  dsimp only
  rw [hmode]
  split
  · exact hflush (s.unnumbered_addCode '/').symm
  · rename_i hcomment
    rw [hcomment] at h
    cases h
  · exact hflush (s.unnumbered_endBlockComment _).symm
  · exact hflush hself

/-! ## Where a line is broken -/

/-- The character ends a segment and stands in none. -/
def endsLine (c : Char) : Bool := c = '\n' || c = ';'

theorem unnumbered_stepCode_break {s : Cutter} (hnested : s.nested = false) {c : Char}
    (hc : endsLine c = true) :
    (s.stepCode c).unnumbered = { s.flush.unnumbered with last := '\x00' } := by
  have hinert : beforeAngle '\n' = '\x00' ∧ beforeAngle ';' = '\x00' := by decide +kernel
  simp only [endsLine, Bool.or_eq_true, decide_eq_true_eq] at hc
  rcases hc with rfl | rfl
  · rw [stepCode_newline hnested]
    exact congrArg (fun c : Char => { s.flush.unnumbered with last := c }) hinert.1
  · have hstep : s.stepCode ';' = { s.flush with last := ';' } := by
      simp [stepCode, isQuoteMark, hnested]
    rw [hstep]
    exact congrArg (fun c : Char => { s.flush.unnumbered with last := c }) hinert.2

/-- Both ways to break a line lead to the same. -/
theorem unnumbered_step_break {s : Cutter} (hbare : s.bare = true) {c d : Char}
    (hc : endsLine c = true) (hd : endsLine d = true) :
    (s.step c).unnumbered = (s.step d).unnumbered := by
  simp only [bare, Bool.and_eq_true, Bool.or_eq_true, Bool.not_eq_true', decide_eq_true_eq] at hbare
  obtain ⟨hmode | hmode, hnested⟩ := hbare
  · have hstep : ∀ e, s.step e = s.stepCode e := fun e => by simp [step, hmode]
    rw [hstep, hstep, unnumbered_stepCode_break hnested hc, unnumbered_stepCode_break hnested hd]
  · -- The slash that was read opens no comment.
    have hstep : ∀ e, endsLine e = true →
        s.step e = (({ s with mode := .code } : Cutter).addCode '/').stepCode e := by
      intro e he
      simp only [endsLine, Bool.or_eq_true, decide_eq_true_eq] at he
      rcases he with rfl | rfl <;> simp [step, hmode]
    have hslash : (({ s with mode := .code } : Cutter).addCode '/').nested = false := hnested
    rw [hstep c hc, hstep d hd, unnumbered_stepCode_break hslash hc,
      unnumbered_stepCode_break hslash hd]

/-- The pass meets no comment at the end of a line in the text. -/
def MeetsNoComment (s : Cutter) (t : Text) : Prop :=
  ∀ p, p <+: t → (s.run p).mode.inLineComment = false

instance (s : Cutter) (t : Text) : Decidable (s.MeetsNoComment t) :=
  decidable_of_iff (∀ p ∈ t.inits, (s.run p).mode.inLineComment = false) (by
    simp only [MeetsNoComment, List.mem_inits])

/-- The second text is the first with lines broken in another way, by a semicolon for a newline or
a newline for a semicolon, outside literals, comments and brackets. -/
def Relaid (s : Cutter) : Text → Text → Prop
  | [], [] => True
  | c :: t, d :: u =>
    (c = d ∨ s.bare = true ∧ endsLine c = true ∧ endsLine d = true) ∧ (s.step c).Relaid t u
  | _, _ => False

instance decidableRelaid : (s : Cutter) → (t u : Text) → Decidable (s.Relaid t u)
  | _, [], [] => .isTrue trivial
  | s, c :: t, _ :: u =>
    have := decidableRelaid (s.step c) t u
    inferInstanceAs (Decidable (_ ∧ _))
  | _, [], _ :: _ => .isFalse id
  | _, _ :: _, [] => .isFalse id

theorem unnumbered_run {s r : Cutter} (h : s.unnumbered = r.unnumbered) {t u : Text}
    (hrelaid : s.Relaid t u) (hnone : s.MeetsNoComment t) :
    (s.run t).unnumbered = (r.run u).unnumbered := by
  induction t generalizing s r u with
  | nil =>
    cases u with
    | nil => exact h
    | cons d u => exact hrelaid.elim
  | cons c t ih =>
    cases u with
    | nil => exact hrelaid.elim
    | cons d u =>
      obtain ⟨hbreak, hrest⟩ := hrelaid
      have hs : s.mode.inLineComment = false := hnone [] (List.nil_prefix)
      have hr : r.mode.inLineComment = false :=
        (congrArg (fun s : Cutter => s.mode.inLineComment) h).symm.trans hs
      have hstep : (s.step c).unnumbered = (s.step d).unnumbered := by
        rcases hbreak with rfl | ⟨hbare, hc, hd⟩
        · rfl
        · exact unnumbered_step_break hbare hc hd
      have hnext : (s.step c).unnumbered = (r.step d).unnumbered := by
        rw [hstep, unnumbered_step hs, h, ← unnumbered_step hr]
      exact ih hnext hrest fun p hp => hnone (c :: p) (List.cons_prefix_cons.2 ⟨rfl, hp⟩)

end Cutter

/-- What the segments of a text say does not depend on where its lines are broken. -/
theorem Segment.content_cut_relaid {t u : Text} (hnone : Cutter.start.MeetsNoComment t)
    (h : Cutter.start.Relaid t u) : (cut u).map content = (cut t).map content := by
  have hrun := Cutter.unnumbered_run rfl h hnone
  have ht : (Cutter.start.run t).mode.inLineComment = false := hnone t (List.prefix_refl t)
  have hu : (Cutter.start.run u).mode.inLineComment = false :=
    (congrArg (fun s : Cutter => s.mode.inLineComment) hrun).symm.trans ht
  rw [cut, cut, ← Cutter.content_finish_unnumbered hu, ← hrun, Cutter.content_finish_unnumbered ht]

/-! ## The sources -/

namespace Source

/-- What is said in the sources of a text depends on what is said in its segments. -/
theorem scan_congr (policy : DuplicatePolicy) {t u : Text}
    (h : (Segment.cut t).map Segment.content = (Segment.cut u).map Segment.content) :
    Logged.results.Rel (fun a b => a.map content = b.map content) (scan policy t)
      (scan policy u) := by
  have hblank : ∀ a b : Source, a.content = b.content → a.isBlankAlias = b.isBlankAlias :=
    fun _ _ h => congrArg (fun c => (ofContent c).isBlankAlias) h
  exact Logged.Agree.imp (scan_related name_of_content hblank policy (sections_congr h))
    fun _ _ => forall₂_eq_on.1

/-- The sources of a text without comments at the ends of lines are those of the text with its
lines broken in another way, but for the lines of their headers. -/
theorem scan_relaid {t u : Text} (hnone : Cutter.start.MeetsNoComment t)
    (h : Cutter.start.Relaid t u) (policy : DuplicatePolicy) :
    (scan policy u).result.map (·.map content) = (scan policy t).result.map (·.map content) := by
  have hagree := scan_congr policy (Segment.content_cut_relaid hnone h)
  change Logged.Agree _ _ _ at hagree
  generalize (scan policy u).result = x, (scan policy t).result = y at hagree
  cases hagree with
  | ok hcontent => exact congrArg Except.ok hcontent
  | error => rfl

/-- A block over several lines, with a comment before a member and a literal that holds a
semicolon. -/
def severalLines : Text :=
  "interface A \x7b\n  /* a;\n b */ a: ';' | 'n'\n  m: Map<string,\n  A>;\n\x7d\n".toList

def oneLine : Text :=
  "interface A \x7b;  /* a;\n b */ a: ';' | 'n';  m: Map<string,\n  A>\n;\x7d;".toList

theorem scan_oneLine :
    Cutter.start.MeetsNoComment severalLines ∧ Cutter.start.Relaid severalLines oneLine ∧
    ∀ policy, (scan policy oneLine).result.map (·.map content) =
      (scan policy severalLines).result.map (·.map content) := by
  have hnone : Cutter.start.MeetsNoComment severalLines := by decide +kernel
  have hrelaid : Cutter.start.Relaid severalLines oneLine := by decide +kernel
  exact ⟨hnone, hrelaid, scan_relaid hnone hrelaid⟩

end Source

end InterfaceForms

import InterfaceForms.Proofs.Braces
import InterfaceForms.Shape

/-!
# Where literals end

The pass that cuts a text and the searches in an expression each keep track of literals. The pass
skips the character after a backslash, and the searches ask whether the character before a mark is
a backslash. So they part where a literal ends in a backslash that is itself escaped, and on a
line without slashes nowhere else.

* `Quoting.Reaches`: what the searches know about literals after the beginning of a text.
* `Quoting.agrees_iff`: when the pass and the searches agree on all that is inside a literal.
-/

namespace InterfaceForms

/-- Inside a literal. -/
def Mode.inLiteral : Mode → Bool
  | .literal _ | .escape _ => true
  | _ => false

/-! ## The searches -/

namespace Quoting

def run (q : Quoting) (t : Text) : Quoting := t.foldl step q

@[simp] theorem run_nil (q : Quoting) : q.run [] = q := rfl

@[simp] theorem run_cons (q : Quoting) (c : Char) (t : Text) :
    q.run (c :: t) = (q.step c).run t := rfl

theorem last_step (q : Quoting) (c : Char) : (q.step c).last = c := by
  unfold step
  split <;> rfl

theorem last_run_concat (q : Quoting) (t : Text) (c : Char) : (q.run (t ++ [c])).last = c := by
  rw [run, List.foldl_append]
  exact last_step _ c

end Quoting

namespace Text

theorem splitFrom_append (sep : Char) (q : Quoting) (depth : Int) (t : Text) :
    ∃ depth' parts last, ∀ u, splitFrom sep ⟨q, depth⟩ (t ++ u) =
      parts ++ (splitFrom sep ⟨q.run t, depth'⟩ u).modifyHead (last ++ ·) := by
  induction t generalizing q depth with
  | nil =>
    refine ⟨depth, [], [], fun u => ?_⟩
    cases h : splitFrom sep ⟨q, depth⟩ u with
    | nil => exact absurd h (splitFrom_ne_nil _ _ _)
    | cons part parts => simp [h]
  | cons c t ih =>
    obtain ⟨depth', parts, last, hrest⟩ := ih (q.step c) ((⟨q, depth⟩ : Nesting).step c).depth
    have hstep : ∀ u, splitFrom sep ((⟨q, depth⟩ : Nesting).step c) (t ++ u) =
        parts ++ (splitFrom sep ⟨(q.step c).run t, depth'⟩ u).modifyHead (last ++ ·) := hrest
    cases hcut : (⟨q, depth⟩ : Nesting).top && c = sep with
    | true =>
      refine ⟨depth', [] :: parts, last, fun u => ?_⟩
      rw [List.cons_append, splitFrom, if_pos hcut, hstep, Quoting.run_cons, List.cons_append]
    | false =>
      have hnot : ¬ ((⟨q, depth⟩ : Nesting).top && c = sep) = true := by simp [hcut]
      cases parts with
      | nil =>
        refine ⟨depth', [], c :: last, fun u => ?_⟩
        rw [List.cons_append, splitFrom, if_neg hnot, hstep, Quoting.run_cons, List.nil_append,
          List.nil_append, List.modifyHead_modifyHead]
        rfl
      | cons part parts =>
        refine ⟨depth', (c :: part) :: parts, last, fun u => ?_⟩
        rw [List.cons_append, splitFrom, if_neg hnot, hstep]
        rfl

theorem cutFrom?_append (sep : Char) (q : Quoting) (depth : Int) (t : Text) :
    (∃ left right, ∀ u, cutFrom? sep ⟨q, depth⟩ (t ++ u) = some (left, right ++ u)) ∨
    ∃ depth', ∀ u, cutFrom? sep ⟨q, depth⟩ (t ++ u) =
      (cutFrom? sep ⟨q.run t, depth'⟩ u).map fun (left, right) => (t ++ left, right) := by
  induction t generalizing q depth with
  | nil =>
    refine .inr ⟨depth, fun u => ?_⟩
    simp
  | cons c t ih =>
    cases hcut : (⟨q, depth⟩ : Nesting).top && c = sep with
    | true =>
      refine .inl ⟨[], t, fun u => ?_⟩
      rw [List.cons_append, cutFrom?, if_pos hcut]
    | false =>
      have hstep : ∀ u, cutFrom? sep ⟨q, depth⟩ (c :: t ++ u) =
          (cutFrom? sep ((⟨q, depth⟩ : Nesting).step c) (t ++ u)).map
            fun (left, right) => (c :: left, right) := by
        intro u
        have hnot : ¬ ((⟨q, depth⟩ : Nesting).top && c = sep) = true := by simp [hcut]
        rw [List.cons_append, cutFrom?, if_neg hnot]
      rcases ih (q.step c) ((⟨q, depth⟩ : Nesting).step c).depth with
        ⟨left, right, hrest⟩ | ⟨depth', hrest⟩
      · refine .inl ⟨c :: left, right, fun u => ?_⟩
        rw [hstep]
        exact congrArg _ (hrest u)
      · refine .inr ⟨depth', fun u => ?_⟩
        rw [hstep]
        refine (congrArg _ (hrest u)).trans ?_
        rw [Option.map_map]
        rfl

theorem closeAngle?_append (q : Quoting) (depth : Nat) (t : Text) :
    (∃ inner rest, ∀ u, closeAngle? q depth (t ++ u) = some (inner, rest ++ u)) ∨
    ∃ depth', ∀ u, closeAngle? q depth (t ++ u) =
      (closeAngle? (q.run t) depth' u).map fun (inner, rest) => (t ++ inner, rest) := by
  induction t generalizing q depth with
  | nil =>
    refine .inr ⟨depth, fun u => ?_⟩
    simp
  | cons c t ih =>
    -- One character further, with another number of brackets open.
    have further : ∀ d, (∀ u, closeAngle? q depth (c :: t ++ u) =
        (closeAngle? (q.step c) d (t ++ u)).map fun (inner, rest) => (c :: inner, rest)) →
        (∃ inner rest, ∀ u, closeAngle? q depth (c :: t ++ u) = some (inner, rest ++ u)) ∨
        ∃ depth', ∀ u, closeAngle? q depth (c :: t ++ u) =
          (closeAngle? (q.run (c :: t)) depth' u).map fun (inner, rest) =>
            (c :: t ++ inner, rest) := by
      intro d hstep
      rcases ih (q.step c) d with ⟨inner, rest, hrest⟩ | ⟨depth', hrest⟩
      · refine .inl ⟨c :: inner, rest, fun u => ?_⟩
        rw [hstep, hrest, Option.map_some]
      · refine .inr ⟨depth', fun u => ?_⟩
        rw [hstep, hrest, Option.map_map]
        rfl
    by_cases hin : q.inside = true
    · exact further depth fun u => by simp [closeAngle?, hin]
    by_cases hopen : c = '<'
    · exact further (depth + 1) fun u => by simp [closeAngle?, hin, hopen]
    by_cases hclose : c = '>'
    · cases depth with
      | zero =>
        refine .inl ⟨[], t, fun u => ?_⟩
        simp [closeAngle?, hin, hclose]
      | succ depth => exact further depth fun u => by simp [closeAngle?, hin, hclose]
    · exact further depth fun u => by simp [closeAngle?, hin, hopen, hclose]

/-- Without a slash no comment begins. -/
theorem cutComment?_append (q : Quoting) {t : Text} (h : '/' ∉ t) (u : Text) :
    cutComment? q (t ++ u) =
      (cutComment? (q.run t) u).map fun (code, comment) => (t ++ code, comment) := by
  induction t generalizing q with
  | nil => simp
  | cons c t ih =>
    obtain ⟨hc, ht⟩ := not_or.1 (mt List.mem_cons.2 h)
    rw [List.cons_append, cutComment?, if_neg (by simp [Ne.symm hc]), ih _ ht, Option.map_map]
    rfl

end Text

/-- After `t` each search in a text that begins with it knows `q` about literals, whatever follows:
the split at a separator and the search for a comment go on with `q`, and so do those for the first
separator and for the closing angle bracket unless they have ended in `t`. -/
structure Quoting.Reaches (t : Text) (q : Quoting) : Prop where
  split (sep : Char) : ∃ depth parts last, ∀ u, Text.splitTop sep (t ++ u) =
    parts ++ (Text.splitFrom sep ⟨q, depth⟩ u).modifyHead (last ++ ·)
  cut (sep : Char) :
    (∃ left right, ∀ u, Text.cutTop? sep (t ++ u) = some (left, right ++ u)) ∨
    ∃ depth, ∀ u, Text.cutTop? sep (t ++ u) =
      (Text.cutFrom? sep ⟨q, depth⟩ u).map fun (left, right) => (t ++ left, right)
  comment (u : Text) : Text.cutComment? .start (t ++ u) =
    (Text.cutComment? q u).map fun (code, comment) => (t ++ code, comment)
  angle :
    (∃ inner rest, ∀ u, Text.closeAngle? .start 0 (t ++ u) = some (inner, rest ++ u)) ∨
    ∃ depth, ∀ u, Text.closeAngle? .start 0 (t ++ u) =
      (Text.closeAngle? q depth u).map fun (inner, rest) => (t ++ inner, rest)

theorem Quoting.reaches_run {t : Text} (h : '/' ∉ t) : Reaches t (start.run t) where
  split sep := Text.splitFrom_append sep .start 0 t
  cut sep := Text.cutFrom?_append sep .start 0 t
  comment := Text.cutComment?_append .start h
  angle := Text.closeAngle?_append .start 0 t

/-! ## The pass and the searches -/

/-- The pass and the searches are inside the same literal or both outside. Right after a backslash
that escapes, the searches have read it last. -/
inductive Quoting.Matches : Mode → Quoting → Prop
  | code (last : Char) : Matches .code ⟨none, last⟩
  | literal {mark : Char} (last : Char) (hmark : isQuoteMark mark = true) :
    Matches (.literal mark) ⟨some mark, last⟩
  | escape {mark : Char} (hmark : isQuoteMark mark = true) :
    Matches (.escape mark) ⟨some mark, '\\'⟩

theorem Quoting.Matches.inside {mode : Mode} {q : Quoting} (h : Matches mode q) :
    mode.inLiteral = q.inside := by
  cases h <;> rfl

namespace Cutter

theorem mode_stepCode_mark {s : Cutter} {c : Char} (hc : isQuoteMark c = true) :
    (s.stepCode c).mode = .literal c := by
  rw [stepCode, if_pos hc]

theorem mode_stepCode_plain {s : Cutter} (hmode : s.mode = .code) {c : Char}
    (hc : isQuoteMark c = false) (hslash : c ≠ '/') : (s.stepCode c).mode = .code := by
  have hopen : s.openBrace.mode = .code := (mode_flush _).trans hmode
  have hclose : s.closeBrace.mode = .code := (mode_flush _).trans hmode
  have hflush : s.flush.mode = .code := (mode_flush _).trans hmode
  have hadd : (s.addCode c).mode = .code := hmode
  unfold stepCode
  rw [if_neg (by simp [hc]), if_neg hslash]
  repeat' split
  all_goals assumption

theorem ne_of_isQuoteMark {c : Char} (h : isQuoteMark c = true) :
    c ≠ '\n' ∧ c ≠ '\\' ∧ c ≠ '/' := by
  refine ⟨?_, ?_, ?_⟩ <;>
  · rintro rfl
    exact absurd h (by decide)

variable {s : Cutter} {q : Quoting} {c : Char}

/-- The pass closes a literal right behind a backslash, and the searches go on with it. -/
theorem inside_step_parted (h : Quoting.Matches s.mode q) (hmode : s.mode = .literal c)
    (hlast : q.last = '\\') :
    (s.step c).mode.inLiteral = false ∧ (q.step c).inside = true := by
  rw [hmode] at h
  cases h with
  | literal last hmark =>
    obtain ⟨hline, hback, -⟩ := ne_of_isQuoteMark hmark
    have hlast : last = '\\' := hlast
    constructor
    · simp [step, hmode, hline, hback, Mode.inLiteral]
    · simp [hlast, Quoting.step, Quoting.inside]

theorem matches_step (h : Quoting.Matches s.mode q) (hline : c ≠ '\n') (hslash : c ≠ '/')
    (hnot : ¬ (s.mode = .literal c ∧ q.last = '\\')) :
    Quoting.Matches (s.step c).mode (q.step c) := by
  generalize hmode : s.mode = mode at h hnot
  cases h with
  | code last =>
    have hstep : s.step c = s.stepCode c := by simp [step, hmode]
    rw [hstep]
    cases hc : isQuoteMark c with
    | true =>
      rw [mode_stepCode_mark hc]
      simpa [Quoting.step, hc] using Quoting.Matches.literal c hc
    | false =>
      rw [mode_stepCode_plain hmode hc hslash]
      simpa [Quoting.step, hc] using Quoting.Matches.code c
  | @literal mark last hmark =>
    by_cases hback : c = '\\'
    · have hne : c ≠ mark := by
        rintro rfl
        exact (ne_of_isQuoteMark hmark).2.1 hback
      have hstep : (s.step c).mode = .escape mark := by simp [step, hmode, hback]
      have hquote : (⟨some mark, last⟩ : Quoting).step c = ⟨some mark, '\\'⟩ := by
        rw [Quoting.step, ← hback]
        simp [hne]
      rw [hstep, hquote]
      exact .escape hmark
    · by_cases hclose : c = mark
      · have hlast : last ≠ '\\' := fun hlast => hnot ⟨by rw [hclose], hlast⟩
        have hstep : (s.step c).mode = .code := by
          simp [step, hmode, hline, hback, ← hclose]
        rw [hstep]
        simpa [Quoting.step, hclose, hlast] using Quoting.Matches.code mark
      · have hstep : (s.step c).mode = .literal mark := by
          simp [step, hmode, hline, hback, hclose]
        rw [hstep]
        simpa [Quoting.step, hclose] using Quoting.Matches.literal c hmark
  | @escape mark hmark =>
    have hstep : (s.step c).mode = .literal mark := by simp [step, hmode]
    rw [hstep]
    simpa [Quoting.step] using Quoting.Matches.literal c hmark

end Cutter

theorem List.forall_prefix_cons {α : Type} {P : List α → Prop} {c : α} {t : List α} :
    (∀ p, p <+: c :: t → P p) ↔ P [] ∧ ∀ p, p <+: t → P (c :: p) := by
  constructor
  · intro h
    exact ⟨h [] List.nil_prefix, fun p hp => h (c :: p) (List.cons_prefix_cons.2 ⟨rfl, hp⟩)⟩
  · rintro ⟨hnil, hcons⟩ p hp
    cases p with
    | nil => exact hnil
    | cons d p =>
      obtain ⟨rfl, htail⟩ := List.cons_prefix_cons.1 hp
      exact hcons p htail

/-- From a common literal on, the pass and the searches part where the pass first closes a literal
right behind a backslash. -/
theorem Cutter.agrees_from {s : Cutter} {q : Quoting} (h : Quoting.Matches s.mode q) {t : Text}
    (hline : '\n' ∉ t) (hslash : '/' ∉ t) :
    (∀ p, p <+: t → (s.run p).mode.inLiteral = (q.run p).inside) ↔
      ∀ p m, p ++ [m] <+: t → (s.run p).mode = .literal m → (q.run p).last ≠ '\\' := by
  induction t generalizing s q with
  | nil =>
    constructor
    · rintro - p m hp
      simp at hp
    · rintro - p hp
      rw [List.prefix_nil.1 hp]
      exact h.inside
  | cons c t ih =>
    obtain ⟨hc, hline⟩ := not_or.1 (mt List.mem_cons.2 hline)
    obtain ⟨hc', hslash⟩ := not_or.1 (mt List.mem_cons.2 hslash)
    by_cases hparted : s.mode = .literal c ∧ q.last = '\\'
    · obtain ⟨hmode, hlast⟩ := hparted
      constructor
      · intro hall
        have hagree : (s.step c).mode.inLiteral = (q.step c).inside := hall [c] (by simp)
        obtain ⟨hout, hin⟩ := inside_step_parted h hmode hlast
        rw [hout, hin] at hagree
        cases hagree
      · intro hall
        exact absurd hlast (hall [] c (by simp) hmode)
    · have hnext := ih (matches_step h (Ne.symm hc) (Ne.symm hc') hparted) hline hslash
      rw [List.forall_prefix_cons]
      constructor
      · rintro ⟨-, hall⟩ p m hp hmode
        cases p with
        | nil =>
          obtain ⟨rfl, -⟩ := List.cons_prefix_cons.1 hp
          exact fun hlast => hparted ⟨hmode, hlast⟩
        | cons d p =>
          obtain ⟨rfl, htail⟩ := List.cons_prefix_cons.1 hp
          exact hnext.1 hall p m htail hmode
      · intro hall
        refine ⟨h.inside, hnext.2 fun p m hp => hall (c :: p) m ?_⟩
        exact List.cons_prefix_cons.2 ⟨rfl, hp⟩

/-- The pass closes a literal of the text right behind a backslash. -/
def Text.ClosesAtBackslash (t : Text) : Prop :=
  ∃ p mark, p ++ ['\\', mark] <+: t ∧ (Cutter.start.run (p ++ ['\\'])).mode = .literal mark

/-- On a line without slashes the pass and the searches agree, after each of its beginnings, whether
a literal is open, unless the pass closes a literal right behind a backslash; then they do not. -/
theorem Quoting.agrees_iff {t : Text} (hline : '\n' ∉ t) (hslash : '/' ∉ t) :
    (∀ p, p <+: t → Reaches p (start.run p)) ∧
    ((∀ p, p <+: t → (Cutter.start.run p).mode.inLiteral = (start.run p).inside) ↔
      ¬ t.ClosesAtBackslash) := by
  refine ⟨fun p hp => reaches_run fun hmem => hslash (hp.subset hmem), ?_⟩
  rw [Cutter.agrees_from (.code _) hline hslash]
  constructor
  · rintro hall ⟨p, mark, hp, hmode⟩
    refine hall (p ++ ['\\']) mark ?_ hmode (last_run_concat _ p _)
    rwa [List.append_assoc]
  · intro hnone p mark hp hmode hlast
    rcases List.eq_nil_or_concat' p with rfl | ⟨p, c, rfl⟩
    · cases hmode
    · rw [last_run_concat] at hlast
      refine hnone ⟨p, mark, ?_, ?_⟩
      · rw [List.append_assoc, hlast] at hp
        exact hp
      · rw [hlast] at hmode
        exact hmode

/-- A literal with an escaped mark in it, and one with the mark of the other. -/
def escapedMark : Text := "'it\\'s' | \"'\"".toList

theorem Quoting.agrees_escapedMark :
    '\n' ∉ escapedMark ∧ '/' ∉ escapedMark ∧
    (∀ p, p <+: escapedMark → Reaches p (start.run p)) ∧
    ((∀ p, p <+: escapedMark → (Cutter.start.run p).mode.inLiteral = (start.run p).inside) ↔
      ¬ escapedMark.ClosesAtBackslash) := by
  have hline : '\n' ∉ escapedMark := by decide
  have hslash : '/' ∉ escapedMark := by decide
  exact ⟨hline, hslash, agrees_iff hline hslash⟩

/-- A literal of one backslash, which is escaped. -/
def escapedBackslash : Text := "'a\\\\' | 'b'".toList

/-- After the first literal the pass is outside and the searches are inside, which makes one value
of the two. -/
theorem Quoting.parts_escapedBackslash :
    '\n' ∉ escapedBackslash ∧ '/' ∉ escapedBackslash ∧
    (∃ p, p <+: escapedBackslash ∧ (Cutter.start.run p).mode.inLiteral = false ∧
      (start.run p).inside = true) ∧
    Shape.ofExpr escapedBackslash = .ok (.enum ["a\\\\' | 'b".toList]) := by
  refine ⟨by decide, by decide, ⟨"'a\\\\'".toList, ?_, ?_, ?_⟩, ?_⟩
  all_goals decide +kernel

end InterfaceForms

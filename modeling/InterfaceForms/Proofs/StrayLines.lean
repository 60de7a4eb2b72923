import InterfaceForms.Proofs.HeaderLines
import InterfaceForms.Proofs.TextOrder

/-!
# Stray lines

What is no part of a declaration may stand before the declarations of a text. As long as it leaves
nothing open, they are read as without it, on later lines. A line of code leaves only brackets
open: parentheses, and angle brackets right after a name, which are taken for the arguments of a
type and not for a comparison.

* `Cutter.run_stray`: the brackets that the pass holds open after a line of code.
* `Source.scan_append_closed`: a text without headers that leaves nothing open.
* `Source.scan_append_stray`: a line of code that leaves no bracket open.
-/

namespace InterfaceForms

/-! ## The brackets of a line -/

namespace Text

/-- The parentheses open after a text before which `n` are; one too many closes nothing. -/
def openParens (n : Nat) : Text → Nat
  | [] => n
  | c :: t => openParens (if c = '(' then n + 1 else if c = ')' then n - 1 else n) t

/-- The angle brackets open after a text before which `n` are and the character `last` stands. Only
one right after a name opens, and the arrow `=>` closes none. -/
def openAngles (n : Nat) (last : Char) : Text → Nat
  | [] => n
  | c :: t =>
    openAngles
      (if c = '<' && (isAlphanumeric last || last = '_' || last = '$') then n + 1
        else if c = '>' && last ≠ '=' then n - 1
        else n)
      c t

/-- No literal, comment, block or line begins or ends in the text. -/
def isStray (t : Text) : Bool :=
  t.all fun c => !(isQuoteMark c || ['/', '\x7b', '\x7d', '\n'].contains c)

end Text

namespace Cutter

variable {s : Cutter} {c : Char}

theorem doc_flush (h : s.doc = none) : s.flush.doc = none := by
  unfold flush
  dsimp only
  split
  · exact h
  · rfl

/-- The pass goes on in code, and only its brackets change. -/
theorem step_stray (hmode : s.mode = .code) (hdoc : s.doc = none)
    (hc : Text.isStray [c] = true) :
    (s.step c).mode = .code ∧ (s.step c).doc = none ∧ (s.step c).last = c ∧
      (s.step c).angles = s.anglesAfter c ∧ (s.step c).parens = s.parensAfter c := by
  have hsign : isQuoteMark c = false ∧ c ≠ '/' ∧ c ≠ '\x7b' ∧ c ≠ '\x7d' ∧ c ≠ '\n' := by
    simpa [Text.isStray] using hc
  obtain ⟨hquote, hslash, hopen, hclose, hnewline⟩ := hsign
  have hadd : s.step c = s.addCode c ∨ c = ';' ∧ s.step c = { s.flush with last := c } := by
    by_cases hsemicolon : c = ';'
    · subst hsemicolon
      cases hnested : s.nested with
      | true => exact .inl (by simp [step, hmode, stepCode, hnested, isQuoteMark])
      | false => exact .inr ⟨rfl, step_semicolon hmode hnested⟩
    · exact .inl (step_of_code hmode hquote (by simp [*]))
  rcases hadd with heq | ⟨rfl, heq⟩
  · rw [heq]
    exact ⟨hmode, hdoc, rfl, rfl, rfl⟩
  · rw [heq]
    exact ⟨s.mode_flush.trans hmode, doc_flush hdoc, rfl, s.angles_flush, s.parens_flush⟩

/-- After a line of code the pass is in code and holds its brackets open. -/
theorem run_stray {t : Text} (ht : Text.isStray t = true) (hmode : s.mode = .code)
    (hdoc : s.doc = none) :
    (s.run t).mode = .code ∧ (s.run t).doc = none ∧
      (s.run t).angles = Text.openAngles s.angles s.last t ∧
      (s.run t).parens = Text.openParens s.parens t := by
  induction t generalizing s with
  | nil => exact ⟨hmode, hdoc, rfl, rfl⟩
  | cons c t ih =>
    obtain ⟨hc, hrest⟩ : Text.isStray [c] = true ∧ Text.isStray t = true := by
      simpa [Text.isStray] using ht
    obtain ⟨hmode', hdoc', hlast, hangles, hparens⟩ := step_stray hmode hdoc hc
    have hrun := ih hrest hmode' hdoc'
    rw [hlast, hangles, hparens] at hrun
    exact hrun

end Cutter

/-- A line of code whose brackets are closed leaves nothing open. -/
theorem Text.closed_of_isStray {t : Text} (ht : isStray t = true) (hparens : openParens 0 t = 0)
    (hangles : openAngles 0 '\x00' t = 0) : t.Closed := by
  obtain ⟨hmode, hdoc, hangles', hparens'⟩ :=
    Cutter.run_stray (s := Cutter.start) ht rfl rfl
  have hopen : (Cutter.start.run t).nested = false := by
    rw [Cutter.nested, hangles', hparens']
    show decide (0 < openAngles 0 '\x00' t + openParens 0 t) = false
    rw [hangles, hparens]
    rfl
  refine ⟨by rw [hmode]; rfl, hangles'.trans hangles, hparens'.trans hparens, ?_⟩
  rw [Cutter.step_newline hmode hopen]
  exact Cutter.doc_flush hdoc

/-! ## Sources on later lines -/

/-- The source `k` lines later. -/
def Source.later (k : Nat) (source : Source) : Source := { source with line := source.line + k }

namespace Section

variable {k : Nat} {segments segments' : List Segment}

/-- A header is no opening brace alone, so that its line is told. -/
theorem line_of_moved {x y : Segment} (h : Segment.Moved k x y) {header : Header}
    (hx : Header.ofLine? x.text = some header) : y.line = x.line + k := by
  have hbrace : Header.ofLine? ['\x7b'] = none := by decide +kernel
  refine h.line fun heq => ?_
  rw [heq, hbrace] at hx
  cases hx

/-- Moved segments are cut into sections that say the same, on later lines. -/
theorem ofSegments_moved (h : List.Forall₂ (Segment.Moved k) segments segments') :
    List.Forall₂ (fun s s' => s.content = s'.content ∧ s'.line = s.line + k)
      (ofSegments segments) (ofSegments segments') := by
  induction h with
  | nil => exact .nil
  | @cons x y segments segments' hmoved hrest ih =>
    have htext : y.text = x.text := congrArg Prod.fst hmoved.content
    have hall := ofSegments_congr (Segment.content_of_moved (.cons hmoved hrest)).symm
    rw [ofSegments_eq, ofSegments_eq, htext] at hall ⊢
    cases hx : Header.ofLine? x.text with
    | none => exact ih
    | some header =>
      rw [hx] at hall
      exact .cons ⟨(List.cons.inj hall).1, line_of_moved hmoved hx⟩ ih

theorem read_later {s s' : Section} (hcontent : s.content = s'.content)
    (hline : s'.line = s.line + k) :
    Logged.results.Rel (fun a b => b = a.later k) s.read s'.read := by
  have hheader : s.header = s'.header := congrArg Prod.fst hcontent
  rw [read_eq, read_eq, readBody_congr hcontent, hheader]
  refine Logged.results.bind_pure (Logged.results_refl _) ?_
  rintro body _ rfl
  rw [hline]
  rfl

end Section

namespace Source

/-- A text without headers that leaves nothing open hides nothing: what follows on the next line
gives the same sources, later by the lines of that text. -/
theorem scan_append_closed {t : Text} (ht : t.Closed)
    (hheader : ∀ x ∈ Segment.cut t, Header.ofLine? x.text = none) (policy : DuplicatePolicy)
    (u : Text) :
    ∃ k, k + 1 = ((Cutter.start.run t).step '\n').line ∧
      (scan policy (t ++ '\n' :: u)).result =
        (scan policy u).result.map (List.map (later k)) := by
  obtain ⟨k, segments, hk, hcut, hmoved⟩ := Segment.exists_cut_append_newline ht u
  refine ⟨k, hk, ?_⟩
  have hsections : List.Forall₂ (Section.Related fun a b => b = a.later k)
      (Section.ofSegments (Segment.cut u)) (Section.ofSegments (Segment.cut (t ++ '\n' :: u))) := by
    rw [hcut, Section.ofSegments_append hheader]
    refine (Section.ofSegments_moved hmoved).imp fun s s' hs => ?_
    exact ⟨congrArg (·.1.name) hs.1, Section.read_later hs.1 hs.2⟩
  have hrelated := scan_related (R := fun a b => b = a.later k) (fun a b hab => hab ▸ rfl)
    (fun a b hab => hab ▸ rfl) policy hsections
  refine hrelated.eq_map fun found found' hfound => ?_
  induction hfound with
  | nil => rfl
  | cons hab _ ih => rw [hab, ih, List.map_cons]

/-- A line of code with no header in it that leaves no bracket open hides nothing: what follows on
the next line gives the same sources, or the same failure, one line later. -/
theorem scan_append_stray {t : Text} (ht : Text.isStray t = true) (hparens : Text.openParens 0 t = 0)
    (hangles : Text.openAngles 0 '\x00' t = 0)
    (hheader : ∀ x ∈ Segment.cut t, Header.ofLine? x.text = none) (policy : DuplicatePolicy)
    (u : Text) :
    (scan policy (t ++ '\n' :: u)).result = (scan policy u).result.map (List.map (later 1)) := by
  have hclosed := Text.closed_of_isStray ht hparens hangles
  obtain ⟨k, hk, hscan⟩ := scan_append_closed hclosed hheader policy u
  obtain ⟨hmode, -, -, -⟩ := Cutter.run_stray (s := Cutter.start) ht rfl rfl
  have hline : (Cutter.start.run t).line = 1 := by
    have hnone : t.count '\n' = 0 := by
      refine List.count_eq_zero.2 fun hmem => ?_
      have hc := List.all_eq_true.1 ht '\n' hmem
      revert hc
      decide
    have hrun := Cutter.start.line_run t
    have hafter : 0 < (Cutter.start.run t).line := (Cutter.counted_start.run t).after
    rw [hnone] at hrun
    change _ = 1 at hrun
    omega
  have hone : k = 1 := by
    have hstep := (Cutter.start.run t).line_step '\n'
    rw [hmode, hline, ← hk] at hstep
    exact Nat.succ.inj hstep
  rw [hscan, hone]

/-- Comparisons, a call, an arrow and closed arguments of a type. -/
def strayText : Text := "const ok = f(a < b); Map<K, V>[] c >= d; e => a > b".toList

def blockText : Text := "interface A \x7b\n  x: string;\n\x7d\n".toList

theorem scan_append_strayText :
    Text.isStray strayText = true ∧ Text.openParens 0 strayText = 0 ∧
    Text.openAngles 0 '\x00' strayText = 0 ∧
    (∀ x ∈ Segment.cut strayText, Header.ofLine? x.text = none) ∧
    (scan .reject (strayText ++ '\n' :: blockText)).result =
      (scan .reject blockText).result.map (List.map (later 1)) := by
  have hstray : Text.isStray strayText = true := by decide +kernel
  have hparens : Text.openParens 0 strayText = 0 := by decide +kernel
  have hangles : Text.openAngles 0 '\x00' strayText = 0 := by decide +kernel
  have hheader : ∀ x ∈ Segment.cut strayText, Header.ofLine? x.text = none := by decide +kernel
  exact ⟨hstray, hparens, hangles, hheader,
    scan_append_stray hstray hparens hangles hheader .reject blockText⟩

/-- A comparison without blanks: the name before `<` makes it open the arguments of a type. -/
def comparisonText : Text := "a<b".toList

/-- A line that is no header, but has one after its semicolon. -/
def partedText : Text := "x; type T = string".toList

/-- After the comparison the block is read as an argument of a type, and the header in the other
line gives a source of its own. -/
theorem scan_append_exceptions :
    (scan .reject blockText).result = .ok [⟨"A".toList, 1, .block [⟨"x: string".toList, none⟩]⟩] ∧
    (Text.isStray comparisonText = true ∧ Text.openParens 0 comparisonText = 0 ∧
      Header.ofLine? comparisonText = none ∧
      (scan .reject (comparisonText ++ '\n' :: blockText)).result = .error .noDeclarations) ∧
    (Text.isStray partedText = true ∧ Text.openParens 0 partedText = 0 ∧
      Header.ofLine? partedText = none ∧
      (scan .reject (partedText ++ '\n' :: blockText)).result =
        .ok [⟨"T".toList, 1, .alias "string".toList⟩,
          ⟨"A".toList, 2, .block [⟨"x: string".toList, none⟩]⟩]) := by
  refine ⟨?_, ⟨?_, ?_, ?_, ?_⟩, ?_, ?_, ?_, ?_⟩
  · decide +kernel
  · decide +kernel
  · decide +kernel
  · decide +kernel
  · decide +kernel
  · decide +kernel
  · decide +kernel
  · decide +kernel
  · decide +kernel

end Source

end InterfaceForms

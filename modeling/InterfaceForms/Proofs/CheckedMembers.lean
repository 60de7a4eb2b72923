import InterfaceForms.Declaration
import InterfaceForms.Proofs.CheckedShapes
import InterfaceForms.Proofs.WalkedSources

/-!
# Checked reading of declarations

A member is cut out of its line at positions: those of the comment and of the colon. What is known
of a declaration after a walk over a text is the lines of its members and, in another list, the
comments before them, which are found by their index.

* `Text.commentFrom_eq`: the second slash of a comment comes after a character of one byte.
* `Member.readAt_eq`: the member in a line.
* `Declaration.readAt_eq`: the declaration that a source stands for.
-/

namespace InterfaceForms

namespace Text

/-- The position of the second of two slashes outside literals, read from the state `q` at the
position `start` on. -/
def commentFrom (q : Quoting) (start : Nat) : Text → Option Nat
  | [] => none
  | c :: t =>
    if !q.inside && c = '/' && q.last = '/' then some start
    else commentFrom (q.step c) (start + c.utf8Size) t

theorem isQuoteMark_step {q : Quoting} (h : ∀ m ∈ q.mark?, isQuoteMark m = true) (c : Char) :
    ∀ m ∈ (q.step c).mark?, isQuoteMark m = true := by
  intro m hm
  unfold Quoting.step at hm
  split at hm
  · rename_i m' hq
    split at hm
    · cases hm
    · cases hm
      exact h m hq
  · split at hm
    · rename_i hc
      cases hm
      exact hc
    · cases hm

/-- A slash closes no literal. -/
theorem outside_of_step_slash {q : Quoting} (h : ∀ m ∈ q.mark?, isQuoteMark m = true)
    (hstep : (q.step '/').inside = false) : q.inside = false := by
  obtain ⟨_ | m, last⟩ := q
  · rfl
  · have hne : '/' ≠ m := by
      rintro rfl
      exact absurd (h '/' rfl) (by decide)
    simp [Quoting.step, Quoting.inside, hne] at hstep

theorem last_step (q : Quoting) (c : Char) : (q.step c).last = c := by
  unfold Quoting.step
  split <;> rfl

/-- If a slash has just been read outside literals, the text does not go on with another. -/
theorem commentFrom_eq {q : Quoting} (hmark : ∀ m ∈ q.mark?, isQuoteMark m = true) (start : Nat)
    {t : Text} (hlast : q.inside = false → q.last = '/' → t.head? ≠ some '/') :
    commentFrom q start t = (cutComment? q t).map fun (code, _) => start + size code + 1 := by
  induction t generalizing q start with
  | nil => rfl
  | cons c t ih =>
    have hfirst : (!q.inside && c = '/' && q.last = '/') = false := by
      rw [Bool.eq_false_iff]
      intro h
      obtain ⟨⟨hout, rfl⟩, hslash⟩ : (q.inside = false ∧ c = '/') ∧ q.last = '/' := by simpa using h
      exact hlast hout hslash rfl
    rw [commentFrom, hfirst, if_neg Bool.false_ne_true, cutComment?]
    split
    · rename_i hcut
      obtain ⟨⟨hout, rfl⟩, hnext⟩ : (q.inside = false ∧ c = '/') ∧ t.head? = some '/' := by
        simpa using hcut
      obtain ⟨comment, rfl⟩ := List.head?_eq_some_iff.1 hnext
      obtain ⟨_ | m, last⟩ := q
      · rfl
      · cases hout
    · rename_i hcut
      rw [ih (isQuoteMark_step hmark c), Option.map_map]
      · refine Option.map_congr ?_
        rintro ⟨code, comment⟩ -
        show start + c.utf8Size + size code + 1 = start + (c.utf8Size + size code) + 1
        rw [Nat.add_assoc start]
      · intro hout hslash hnext
        obtain rfl : c = '/' := (last_step q c).symm.trans hslash
        apply hcut
        simp [outside_of_step_slash hmark hout, hnext]

end Text

namespace Member

/-- The code of a line and its comment. -/
def codeAndCommentAt (line : Text) : Except Trap (Text × Option Text) :=
  match Text.commentFrom .start 0 line with
  | none => return (line, none)
  | some i => do
    let comment := Text.trim ((← Text.sliceFrom (i + 1) line).dropWhile (· = '/'))
    let code := Text.trimEnd (← Text.sliceTo (← Checked.minus i 1) line)
    return (code, if comment = [] then none else some comment)

theorem codeAndCommentAt_eq (line : Text) :
    codeAndCommentAt line = .ok (codeAndComment line) := by
  have hstart : ∀ m ∈ Quoting.start.mark?, isQuoteMark m = true := by
    rintro m ⟨⟩
  have hlast : Quoting.start.last ≠ '/' := by decide
  rw [codeAndCommentAt, codeAndComment,
    Text.commentFrom_eq hstart 0 fun _ hslash => absurd hslash hlast]
  cases hcut : Text.cutComment? .start line with
  | none => rfl
  | some parts =>
    obtain ⟨code, comment⟩ := parts
    obtain rfl := Text.eq_of_cutComment? hcut
    have hcomment : Text.sliceFrom (Text.size code + 1 + 1) (code ++ '/' :: '/' :: comment) =
        .ok comment := by
      have h := Text.sliceFrom_after (c := '/') rfl (code ++ ['/']) comment
      rwa [List.append_assoc, Text.size_append] at h
    dsimp only [Option.map_some]
    rw [Nat.zero_add, Checked.minus_add, hcomment]
    simp only [bind, Except.bind, Text.sliceTo_append]
    rfl

/-- The member in a line, if there is one. -/
def readAt (line : Text) : Checked (Option Member) := do
  let (code, description) ← codeAndCommentAt (bareLine line)
  match Text.firstAt? ':' code with
  | none => return none
  | some colon =>
    let left := Text.trim (← Text.sliceTo colon code)
    if left = [] || left.contains '(' then return none
    else
      let name := Text.trim (Text.dropEndWhile (· = '?') left)
      let quoted ← Text.unquoteAt name
      let rawType := rawTypeOf (← Text.sliceFrom (colon + 1) code)
      if rawType = [] then return none
      else
        let shape ← Shape.readAt rawType
        return some ⟨quoted.getD name, Text.endsWith '?' left, rawType, description, shape⟩

theorem readAt_eq (line : Text) : readAt line = liftM (Logged.ofExcept (ofLine line)) := by
  rw [readAt, codeAndCommentAt_eq, Checked.ok_bind, ofLine]
  generalize codeAndComment (bareLine line) = parts
  obtain ⟨code, description⟩ := parts
  dsimp only
  rw [Text.firstAt?_eq, ofCode]
  cases hcut : Text.cutTop? ':' code with
  | none => rfl
  | some parts =>
    obtain ⟨left, right⟩ := parts
    obtain rfl := Text.cutTop?_eq_some hcut
    dsimp only [Option.map_some]
    rw [Text.sliceTo_append, Checked.ok_bind, Text.unquoteAt_eq, Checked.ok_bind,
      Text.sliceFrom_after rfl, Checked.ok_bind]
    cases hleft : decide (Text.trim left = []) || (Text.trim left).contains '(' with
    | true => rfl
    | false =>
      simp only [Bool.false_or, Bool.false_eq_true, if_false, decide_eq_true_eq]
      split
      · rfl
      · rw [Shape.readAt_eq, Logged.ofExcept_bind, liftM_bind]
        rfl

end Member

/-! ## Declarations -/

/-- The member in a line with an index, described by the comment with this index where it has none
at its end. -/
def Record.memberAt (docs : List (Option Text)) (line : Text × Nat) : Checked (Option Member) :=
  return (← Member.readAt line.1).map fun m =>
    { m with description := m.description.or docs[line.2]?.join }

namespace Declaration

/-- The declaration of a record. -/
def readAt (name : Text) (r : Record) : Checked Declaration :=
  match r.target? with
  | some expr => return ⟨name, .alias ⟨[], false, Text.trim expr, none, ← Shape.readAt expr⟩⟩
  | none => return ⟨name, .block ((← r.members.zipIdx.mapM (Record.memberAt r.docs)).filterMap id)⟩

theorem memberAt_eq {docs : List (Option Text)} {line : MemberLine} {i : Nat}
    (hdoc : docs[i]? = some line.doc) :
    Record.memberAt docs (line.text, i) = liftM (Logged.ofExcept line.member?) := by
  rw [Record.memberAt, Member.readAt_eq, MemberLine.member?, Logged.ofExcept_bind, liftM_bind, hdoc]
  rfl

/-- Every comment is found by the index of its line. -/
theorem mapM_memberAt (before : List (Option Text)) (lines : List MemberLine) :
    ((lines.map (·.text)).zipIdx before.length).mapM
        (Record.memberAt (before ++ lines.map (·.doc))) =
      liftM (Logged.ofExcept (lines.mapM MemberLine.member?)) := by
  induction lines generalizing before with
  | nil => rfl
  | cons line lines ih =>
    have hdoc : (before ++ (line :: lines).map (·.doc))[before.length]? = some line.doc := by simp
    have hrest := ih (before ++ [line.doc])
    rw [List.length_append, List.append_assoc] at hrest
    show (((line.text :: lines.map (·.text)).zipIdx before.length).mapM
      (Record.memberAt (before ++ (line :: lines).map (·.doc)))) = _
    rw [List.zipIdx_cons, List.mapM_cons, List.mapM_cons, memberAt_eq hdoc, Logged.ofExcept_bind,
      liftM_bind]
    refine bind_congr fun m => ?_
    rw [Logged.ofExcept_bind, liftM_bind, ← hrest]
    rfl

theorem readAt_eq (source : Source) :
    readAt source.name source.record = liftM (Logged.ofExcept (ofSource source)) := by
  obtain ⟨name, line, lines | expr⟩ := source
  · have hlines := mapM_memberAt [] lines
    show (do return Declaration.mk name (.block ((← (lines.map (·.text)).zipIdx.mapM
      (Record.memberAt (lines.map (·.doc)))).filterMap id)) : Checked Declaration) = _
    rw [List.nil_append, List.length_nil] at hlines
    rw [hlines]
    simp only [ofSource, Logged.ofExcept_bind, liftM_bind]
    rfl
  · simp only [readAt, Source.record, ofSource, Shape.readAt_eq]
    rw [Shape.read, Member.ofAlias]
    cases Shape.ofExpr expr with
    | error cause => rfl
    | ok shape => rfl

end Declaration

end InterfaceForms

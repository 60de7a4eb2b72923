import InterfaceForms.Proofs.BrokenLines
import InterfaceForms.Proofs.UnionLayouts

/-!
# Members over several lines

A member of a block may go on over lines while brackets are open, with a comment behind its last
line. Against the member on one line without the comment nothing changes but the description: the
comment is the description, unless a semicolon stands before it and the member began on an earlier
line, where it is lost.

* `Source.collect_differ`: sections that differ in one source.
* `Section.exists_differ`: the sections of segments that differ in the line of one member.
* `Declaration.ofText_brokenMember`: the declarations of the two texts.
-/

namespace InterfaceForms

/-! ## One source of several -/

namespace Source

/-- One list has `a` where the other has `b`; the other sources say the same. -/
def Differ (a b : Source) (found found' : List Source) : Prop :=
  ∃ l₁ l₂ l₁' l₂', found = l₁ ++ a :: l₂ ∧ found' = l₁' ++ b :: l₂' ∧
    List.Forall₂ (fun x y => x.content = y.content) l₁ l₁' ∧
    List.Forall₂ (fun x y => x.content = y.content) l₂ l₂'

variable {a b : Source} {found found' : List Source}

theorem forall₂_content_refl (l : List Source) :
    List.Forall₂ (fun x y : Source => x.content = y.content) l l :=
  List.forall₂_same.2 fun _ _ => rfl

theorem put_differ (hname : a.name = b.name) (found : List Source) :
    Differ a b (put a found) (put b found) := by
  induction found with
  | nil => exact ⟨[], [], [], [], rfl, rfl, .nil, .nil⟩
  | cons first found ih =>
    rw [put, put, hname]
    split
    · exact ⟨[], found, [], found, rfl, rfl, .nil, forall₂_content_refl found⟩
    · obtain ⟨l₁, l₂, l₁', l₂', ha, hb, hbefore, hafter⟩ := ih
      rw [ha, hb]
      exact ⟨first :: l₁, l₂, first :: l₁', l₂', rfl, rfl, .cons rfl hbefore, hafter⟩

namespace Differ

theorem names (h : Differ a b found found') (hname : a.name = b.name) :
    List.Forall₂ (fun x y => x.name = y.name) found found' := by
  obtain ⟨l₁, l₂, l₁', l₂', rfl, rfl, hbefore, hafter⟩ := h
  exact List.rel_append (hbefore.imp name_of_content) (.cons hname (hafter.imp name_of_content))

/-- A source with another name leaves the two where they are. -/
theorem put (h : Differ a b found found') (hname : a.name = b.name) {x y : Source}
    (hxy : x.content = y.content) (hother : x.name ≠ a.name) :
    Differ a b (put x found) (put y found') := by
  have hxy' : x.name = y.name := name_of_content x y hxy
  obtain ⟨l₁, l₂, l₁', l₂', rfl, rfl, hbefore, hafter⟩ := h
  induction hbefore with
  | nil =>
    have hrest := put_related name_of_content hxy hafter
    refine ⟨[], _, [], _, ?_, ?_, .nil, hrest⟩
    · rw [List.nil_append, Source.put, if_neg (Ne.symm hother), List.nil_append]
    · rw [List.nil_append, Source.put, if_neg (by rw [← hname, ← hxy']; exact Ne.symm hother),
        List.nil_append]
  | @cons z z' l l' hz hl ih =>
    rw [List.cons_append, List.cons_append, Source.put, Source.put, ← hxy',
      ← name_of_content z z' hz]
    split
    · exact ⟨x :: l, l₂, y :: l', l₂', rfl, rfl, .cons hxy hl, hafter⟩
    · obtain ⟨m₁, m₂, m₁', m₂', ha, hb, hm₁, hm₂⟩ := ih
      rw [ha, hb]
      exact ⟨z :: m₁, m₂, z' :: m₁', m₂', rfl, rfl, .cons hz hm₁, hm₂⟩

end Differ

/-- Sections with other names leave the two where they are. -/
theorem Differ.collect (policy : DuplicatePolicy) (hname : a.name = b.name)
    {rest rest' : List Section}
    (hrest : List.Forall₂ (Section.Related fun x y => x.content = y.content ∧ x.name ≠ a.name)
      rest rest') (h : Differ a b found found') :
    Logged.results.Rel (Differ a b) (collect policy found rest) (collect policy found' rest') := by
  induction hrest generalizing found found' with
  | nil => exact Logged.results.pure h
  | cons hs _ ih =>
    rw [Source.collect, Source.collect]
    refine Logged.results.bind
      (checkDuplicate_related (fun _ _ h => h) policy hs.name (h.names hname)) fun _ _ _ => ?_
    exact Logged.results.bind hs.read fun _ _ hread => ih (h.put hname hread.1 hread.2)

/-- Sections of which one gives another source. -/
theorem collect_differ (policy : DuplicatePolicy) (earlier : List Section) {s s' : Section}
    {rest rest' : List Section} (hs : s.read.result = .ok a) (hs' : s'.read.result = .ok b)
    (hname : s.header.name = s'.header.name)
    (hrest : List.Forall₂ (Section.Related fun x y => x.content = y.content ∧ x.name ≠ a.name)
      rest rest') :
    Logged.results.Rel (Differ a b) (collect policy [] (earlier ++ s :: rest))
      (collect policy [] (earlier ++ s' :: rest')) := by
  have hsame : a.name = b.name := by
    rw [Section.name_of_read hs, Section.name_of_read hs', hname]
  have hread : Logged.results.Rel (fun x y => x = a ∧ y = b) s.read s'.read := by
    change Logged.Agree _ _ _
    rw [hs, hs']
    exact .ok ⟨rfl, rfl⟩
  rw [collect_append, collect_append]
  refine Logged.results.bind (Logged.results_refl _) ?_
  rintro found _ rfl
  rw [collect, collect]
  refine Logged.results.bind (checkDuplicate_related (R := fun x y => x.name = y.name)
    (fun _ _ h => h) policy hname (List.forall₂_same.2 fun _ _ => rfl)) fun _ _ _ => ?_
  refine Logged.results.bind hread ?_
  rintro _ _ ⟨rfl, rfl⟩
  exact (put_differ hsame found).collect policy hsame hrest

end Source

namespace Declaration

/-- The declarations are the same but for a member of the block of `owner`. -/
def DifferIn (owner : Text) (m m' : Member) (declarations declarations' : List Declaration) :
    Prop :=
  ∃ earlier ms ms' later,
    declarations = earlier ++ ⟨owner, .block (ms ++ m :: ms')⟩ :: later ∧
      declarations' = earlier ++ ⟨owner, .block (ms ++ m' :: ms')⟩ :: later

theorem mapM_ofSource_of_content {l l' : List Source}
    (h : List.Forall₂ (fun x y => x.content = y.content) l l') :
    l.mapM ofSource = l'.mapM ofSource := by
  induction h with
  | nil => rfl
  | @cons x y l l' hxy _ ih =>
    obtain ⟨name, line, body⟩ := x
    obtain ⟨name', line', body'⟩ := y
    obtain ⟨rfl, rfl⟩ := Prod.mk.inj hxy
    rw [List.mapM_cons, List.mapM_cons, ih]
    rfl

theorem mapM_append_cons {ε α β : Type} {f : α → Except ε β} (l₁ : List α) (a : α) (l₂ : List α) :
    (l₁ ++ a :: l₂).mapM f = l₁.mapM f >>= fun bs => f a >>= fun c => l₂.mapM f >>= fun bs' =>
      .ok (bs ++ c :: bs') := by
  rw [List.mapM_append, List.mapM_cons]
  cases l₁.mapM f with
  | error e => rfl
  | ok bs =>
    cases f a with
    | error e => rfl
    | ok c => cases l₂.mapM f <;> rfl

variable {m m' : Member} {x y : MemberLine}

/-- Blocks that differ in one line. -/
theorem ofSource_differ (hx : x.member? = .ok (some m)) (hy : y.member? = .ok (some m'))
    (owner : Text) (line : Nat) (lines lines' : List MemberLine) :
    Logged.Agree (fun d d' => ∃ ms ms', d = ⟨owner, .block (ms ++ m :: ms')⟩ ∧
        d' = ⟨owner, .block (ms ++ m' :: ms')⟩)
      (ofSource ⟨owner, line, .block (lines ++ x :: lines')⟩)
      (ofSource ⟨owner, line, .block (lines ++ y :: lines')⟩) := by
  simp only [ofSource, mapM_append_cons, hx, hy]
  cases lines.mapM MemberLine.member? with
  | error e => exact .error
  | ok ms =>
    cases lines'.mapM MemberLine.member? with
    | error e => exact .error
    | ok ms' =>
      refine .ok ⟨ms.filterMap id, ms'.filterMap id, ?_, ?_⟩ <;> simp

theorem ofFound_differ (hx : x.member? = .ok (some m)) (hy : y.member? = .ok (some m'))
    {owner : Text} {line : Nat} {lines lines' : List MemberLine} {found found' : List Source}
    (h : Source.Differ ⟨owner, line, .block (lines ++ x :: lines')⟩
      ⟨owner, line, .block (lines ++ y :: lines')⟩ found found') :
    Logged.Agree (DifferIn owner m m') (ofFound found) (ofFound found') := by
  obtain ⟨l₁, l₂, l₁', l₂', rfl, rfl, hbefore, hafter⟩ := h
  have hkept : ∀ {l l' : List Source}, List.Forall₂ (fun x y => x.content = y.content) l l' →
      (l.filter (!·.isBlankAlias)).mapM ofSource = (l'.filter (!·.isBlankAlias)).mapM ofSource := by
    intro l l' hl
    refine mapM_ofSource_of_content (List.rel_filter (fun a b hab => ?_) hl)
    have hblank : a.isBlankAlias = b.isBlankAlias :=
      congrArg (fun c => (Source.ofContent c).isBlankAlias) hab
    simp [hblank]
  have hblock : ∀ (number : Nat) (lines : List MemberLine),
      (⟨owner, number, .block lines⟩ : Source).isBlankAlias = false := fun _ _ => rfl
  have hsource := ofSource_differ hx hy owner line lines lines'
  unfold ofFound
  simp only [List.filter_append, List.filter_cons, hblock, Bool.not_false, if_true,
    List.append_eq_nil_iff, List.cons_ne_nil, and_false, if_false, mapM_append_cons,
    hkept hbefore, hkept hafter]
  generalize ofSource ⟨owner, line, .block (lines ++ x :: lines')⟩ = d,
    ofSource ⟨owner, line, .block (lines ++ y :: lines')⟩ = d' at hsource
  cases (l₁'.filter (!·.isBlankAlias)).mapM ofSource with
  | error e => exact .error
  | ok earlier =>
    cases hsource with
    | error => exact .error
    | ok hd =>
      obtain ⟨ms, ms', rfl, rfl⟩ := hd
      cases (l₂'.filter (!·.isBlankAlias)).mapM ofSource with
      | error e => exact .error
      | ok later => exact .ok ⟨earlier, ms, ms', later, rfl, rfl⟩

end Declaration

/-! ## The section of the block -/

namespace Section

/-- Sections that say the same and have another name. -/
theorem related_of_new {owner : Text} {A A' : List Segment}
    (hA : A.map Segment.content = A'.map Segment.content)
    (hnew : owner ∉ Segment.headerNames A) :
    List.Forall₂ (Related fun x y => x.content = y.content ∧ x.name ≠ owner) (ofSegments A)
      (ofSegments A') := by
  rw [← map_name_ofSegments] at hnew
  have hall := Source.sections_congr hA
  generalize ofSegments A = sections, ofSegments A' = sections' at hall hnew
  induction hall with
  | nil => exact .nil
  | @cons s s' sections sections' hs _ ih =>
    rw [List.map_cons, List.mem_cons, not_or] at hnew
    refine .cons ⟨hs.name, ?_⟩ (ih hnew.2)
    obtain ⟨source, hsource⟩ := s.read_succeeds
    have hread := hs.read
    change Logged.Agree _ _ _ at hread ⊢
    rw [hsource] at hread ⊢
    generalize s'.read.result = r at hread ⊢
    cases hread with
    | ok hcontent =>
      refine .ok ⟨hcontent, ?_⟩
      rw [name_of_read hsource]
      exact Ne.symm hnew.1

/-- The line of a member in the section of a block. -/
theorem read_member {header : Header} {line : Nat} {b body : List Segment} {X : Segment}
    {m : Member} {lines zs : List MemberLine} (hX : X.GivesMember m)
    (hread : ∀ rest, (readBody ⟨header, line, b ++ rest⟩).result =
      (SourceBody.block <$> readBlock header.name 0 lines rest).result)
    (hzs : ∀ x, (readBlock header.name 0 (x :: lines) body).result =
      .ok (lines.reverse ++ x :: zs)) :
    (read ⟨header, line, b ++ X :: body⟩).result =
      .ok ⟨header.name, line, .block (lines.reverse ++ ⟨X.text, X.doc⟩ :: zs)⟩ := by
  have hline : MemberLine.ofSegment X = ⟨X.text, X.doc⟩ := by
    simp [MemberLine.ofSegment, beforeBrace?, hX.opens]
  have hblock : (readBlock header.name 0 lines (X :: body)).result =
      .ok (lines.reverse ++ ⟨X.text, X.doc⟩ :: zs) := by
    rw [result_readBlock_member header.name lines body
      (Segment.ne_brace_of_startsMember hX.starts) hX.starts, hX.opens, hline, ← hzs]
    rfl
  rw [read_eq, Logged.bind_result, hread, Logged.map_eq, hblock]
  rfl

/-- Where a member of a block stands, another line of one changes the source of that block. -/
theorem exists_differ {before A A' : List Segment} {owner : Text} {X X' : Segment} {m m' : Member}
    (hplace : (Walk.start.after before).place = .block owner 0) (hX : X.GivesMember m)
    (hX' : X'.GivesMember m') (hA : A.map Segment.content = A'.map Segment.content)
    (hend : MemberLine.endsMember (A.map (·.text)) = true)
    (hnew : owner ∉ Segment.headerNames A) (policy : DuplicatePolicy) :
    ∃ (line : Nat) (lines zs : List MemberLine),
      Logged.results.Rel
        (Source.Differ ⟨owner, line, .block (lines ++ ⟨X.text, X.doc⟩ :: zs)⟩
          ⟨owner, line, .block (lines ++ ⟨X'.text, X'.doc⟩ :: zs)⟩)
        (Source.collect policy [] (ofSegments (before ++ X :: A)))
        (Source.collect policy [] (ofSegments (before ++ X' :: A'))) := by
  obtain ⟨lines, earlier, first, header, b, rfl, hfirst, rfl, hb, hread⟩ :=
    Walk.exists_continues hplace
  obtain ⟨body, rest, body', rest', rfl, rfl, hbodies, hrests, hbody, hbody', hrest, hrest'⟩ :=
    exists_bodies hA
  obtain ⟨zs, hzs⟩ := exists_readBlock_last header.name lines
    (MemberLine.endsMember_of_prefix ((List.prefix_append body rest).map (·.text)) hend)
  have hzs' : ∀ x, (readBlock header.name 0 (x :: lines) body').result =
      .ok (lines.reverse ++ x :: zs) := by
    intro x
    rw [← readBlock_congr header.name 0 (x :: lines) hbodies, hzs]
  have hsections : ∀ {X : Segment} {m : Member} {body rest : List Segment}, X.GivesMember m →
      (∀ x ∈ body, Header.ofLine? x.text = none) →
      (∀ x ∈ rest.head?, Header.ofLine? x.text ≠ none) →
      ofSegments (earlier ++ first :: b ++ X :: (body ++ rest)) =
        ofSegments earlier ++ ⟨header, first.line, b ++ X :: body⟩ :: ofSegments rest := by
    intro X m body rest hX hbody hrest
    have hlines : ∀ x ∈ b ++ X :: body, Header.ofLine? x.text = none := by
      intro x hx
      rcases List.mem_append.1 hx with hx | hx
      · exact hb x hx
      · rcases List.mem_cons.1 hx with rfl | hx
        · exact hX.header
        · exact hbody x hx
    have hsplit : earlier ++ first :: b ++ X :: (body ++ rest) =
        earlier ++ first :: ((b ++ X :: body) ++ rest) := by simp
    rw [hsplit, ofSegments_between hfirst hlines hrest]
  rw [Segment.headerNames_append, List.mem_append, not_or] at hnew
  rw [hsections hX hbody hrest, hsections hX' hbody' hrest']
  exact ⟨first.line, lines.reverse, zs, Source.collect_differ policy _ (read_member hX hread hzs)
    (read_member hX' hread hzs') rfl (related_of_new hrests hnew.2)⟩

end Section

/-! ## The texts -/

/-- Behind `before`, in the block of `owner`, stands a member whose code goes on over `lines` to
`last`. No line of `after` goes on with the member or begins a block of that name again. -/
structure BrokenMember (before : Text) (lines : List CodeLine) (last after : Text) where
  owner : Text
  /-- The member as its line says it, without a description. -/
  member : Member
  begins : Cutter.Begins before (Cutter.start.run before).done
  place : (Walk.start.after (Segment.cut before)).place = .block owner 0
  breaks : (Cutter.start.run before).Breaks lines
  oneLine : '\n' ∉ last
  holds : (Cutter.start.run (before ++ CodeLine.flat lines last)).HoldsMember member
  done : (Cutter.start.run (before ++ CodeLine.flat lines last)).done =
    (Cutter.start.run before).done
  line : (Cutter.start.run (before ++ CodeLine.flat lines last)).bufferLine =
    (Cutter.start.run (before ++ CodeLine.flat lines last)).line
  ends : MemberLine.endsMember ((Segment.cut after).map (·.text)) = true
  new : owner ∉ Segment.headerNames (Segment.cut after)

theorem Segment.IsMember.of_text {s s' : Segment} {m : Member} (h : s.IsMember m)
    (htext : s'.text = s.text) : s'.IsMember m := by
  constructor
  · rw [htext]
    exact h.starts
  · rw [htext]
    exact h.header
  · rw [htext]
    exact h.opens
  · rw [htext]
    exact h.written

namespace BrokenMember

variable {before last after : Text} {lines : List CodeLine}
  (b : BrokenMember before lines last after)

/-- The member without the comment. A block comment before it describes it. -/
def plain : Member :=
  { b.member with description := (Cutter.start.run (before ++ CodeLine.flat lines last)).doc }

/-- The member with the comment behind its last line. Behind a semicolon the comment is lost if the
member began on an earlier line. -/
def described (e : Cutter.TrailingComment) : Member :=
  if e.close = true ∧ lines ≠ [] then b.plain else { b.member with description := some e.words }

/-- Where no line is open, a name and balanced code that are the line of a member make one, with
newlines for any blanks inside brackets. -/
theorem exists_of_code {owner b n u : Text} {doc : Option Text}
    {read : List (Text × Option Text)} {m : Member}
    (hbefore : (Cutter.start.run before).Ready doc read)
    (hplace : (Walk.start.after (Segment.cut before)).place = .block owner 0)
    (hflat : CodeLine.flat lines last = b ++ (n ++ u)) (hb : Text.blank b = true)
    (hn : IsName n) (hu : Code [] u) (hsolid : (n ++ u).Solid)
    (hm : Segment.IsMember ⟨n ++ u, 0, none⟩ m) (hbreaks : (Cutter.start.run before).Breaks lines)
    (hlast : '\n' ∉ last) (hends : MemberLine.endsMember ((Segment.cut after).map (·.text)) = true)
    (hnew : owner ∉ Segment.headerNames (Segment.cut after)) :
    ∃ b : BrokenMember before lines last after,
      b.owner = owner ∧ b.plain = { m with description := doc } := by
  obtain ⟨hheld, hdone⟩ := hbefore.run_code hb hn hu
  rw [← hflat, ← Cutter.run_append] at hheld hdone
  have htext : (Cutter.start.run (before ++ CodeLine.flat lines last)).pending.text = n ++ u := by
    obtain ⟨b, hb, hbuffer⟩ := hheld.buffer
    rw [Cutter.pending, hbuffer, Text.trim_append hb, hsolid.trim]
  refine ⟨⟨owner, m, ⟨hbefore.mode, hbefore.buffer, rfl⟩, hplace, hbreaks, hlast,
    ⟨hheld.mode, hheld.nested, hm.of_text htext⟩, hdone, hheld.line, hends, hnew⟩, rfl, ?_⟩
  rw [plain, hheld.doc]

/-- Over several lines the member is held as on one, on the line on which it began. -/
theorem broken_state :
    (Cutter.start.run (before ++ CodeLine.broken lines last)).HoldsMember b.member ∧
      (Cutter.start.run (before ++ CodeLine.broken lines last)).done =
        (Cutter.start.run before).done ∧
      (Cutter.start.run (before ++ CodeLine.broken lines last)).doc =
        (Cutter.start.run (before ++ CodeLine.flat lines last)).doc ∧
      ((Cutter.start.run (before ++ CodeLine.broken lines last)).bufferLine ≠
        (Cutter.start.run (before ++ CodeLine.broken lines last)).line ↔ lines ≠ []) := by
  have hbreaks := b.breaks
  have hholds := b.holds
  have hdone := b.done
  have hflat := b.line
  cases lines with
  | nil => exact ⟨hholds, hdone, rfl, fun hother => absurd hflat hother, fun h => absurd rfl h⟩
  | cons line lines =>
    have hmode := hholds.mode
    rw [Cutter.run_append] at hmode
    have hsame := Cutter.unnumbered_broken rfl hbreaks b.oneLine hmode
    rw [← Cutter.run_append, ← Cutter.run_append] at hsame
    have hlength := congrArg (fun s : Cutter => s.done.length) hsame
    simp only [Cutter.unnumbered, List.length_map, hdone] at hlength
    rw [Cutter.run_append] at hlength
    obtain ⟨hread, hline⟩ := Cutter.broken_kept (Cutter.clean_start.run before)
      (Cutter.counted_start.run before) hbreaks hlength.symm
    rw [← Cutter.run_append] at hread hline
    refine ⟨⟨?_, ?_, hholds.member.of_text ?_⟩, hread, ?_, ?_⟩
    · exact (congrArg Cutter.mode hsame).symm.trans hholds.mode
    · exact (congrArg Cutter.nested hsame).symm.trans hholds.nested
    · exact (congrArg (fun s : Cutter => Text.trim s.buffer.reverse) hsame).symm
    · exact (congrArg Cutter.doc hsame).symm
    · simpa using Nat.ne_of_lt hline

/-- The segments of the two texts. -/
theorem exists_cuts (e : Cutter.TrailingComment) : ∃ (X X' : Segment) (A A' : List Segment),
    Segment.cut (before ++ CodeLine.flat lines last ++ terminator e.close ++ '\n' :: after) =
      Segment.cut before ++ X :: A ∧
    Segment.cut (before ++ CodeLine.broken lines last ++ e.text ++ '\n' :: after) =
      Segment.cut before ++ X' :: A' ∧
    X.GivesMember b.plain ∧ X'.GivesMember (b.described e) ∧
    A.map Segment.content = (Segment.cut after).map Segment.content ∧
    A'.map Segment.content = (Segment.cut after).map Segment.content := by
  obtain ⟨hholds, hdone, hdoc, hline⟩ := b.broken_state
  have hbegins := b.begins
  have hbegins' := b.begins
  rw [← b.done] at hbegins
  rw [← hdone] at hbegins'
  obtain ⟨hclosed, hcut⟩ := Segment.cut_member hbegins b.holds e.close
  obtain ⟨X', hgives, hclosed', hcut'⟩ := Segment.exists_cut_commented hbegins' hholds e
  obtain ⟨_, A, -, hall, hA⟩ := Segment.exists_cut_append_newline hclosed after
  obtain ⟨_, A', -, hall', hA'⟩ := Segment.exists_cut_append_newline hclosed' after
  rw [hcut, List.append_assoc (Segment.cut before), List.singleton_append] at hall
  rw [hcut', List.append_assoc (Segment.cut before), List.singleton_append] at hall'
  refine ⟨_, X', A, A', hall, hall', b.holds.member.gives, ?_, Segment.content_of_moved hA,
    Segment.content_of_moved hA'⟩
  rw [hdoc] at hgives
  simp only [hline] at hgives
  unfold described
  split
  · rename_i hlost
    rwa [if_pos hlost] at hgives
  · rename_i hkept
    rwa [if_neg hkept] at hgives

end BrokenMember

namespace Segment

variable {segments segments' : List Segment}

theorem texts_of_content (h : segments.map content = segments'.map content) :
    segments.map (·.text) = segments'.map (·.text) := by
  have htexts := congrArg (List.map Prod.fst) h
  rwa [List.map_map, List.map_map] at htexts

theorem headerNames_of_content (h : segments.map content = segments'.map content) :
    headerNames segments = headerNames segments' := by
  have hnames : ∀ l : List Segment,
      headerNames l = ((l.map (·.text)).filterMap Header.ofLine?).map (·.name) := by
    intro l
    rw [List.filterMap_map]
    rfl
  rw [hnames, hnames, texts_of_content h]

end Segment

namespace Declaration

variable {before last after : Text} {lines : List CodeLine}

/-- A member over several lines with a comment behind it is read as the member on one line, with
another description. Nothing else changes, even where the text is refused. -/
theorem ofText_brokenMember (b : BrokenMember before lines last after)
    (e : Cutter.TrailingComment) (options : Options) :
    Logged.Agree (DifferIn b.owner b.plain (b.described e))
      (ofText options
        (before ++ CodeLine.flat lines last ++ terminator e.close ++ '\n' :: after)).result
      (ofText options
        (before ++ CodeLine.broken lines last ++ e.text ++ '\n' :: after)).result := by
  obtain ⟨X, X', A, A', hcut, hcut', hX, hX', hA, hA'⟩ := b.exists_cuts e
  have hend : MemberLine.endsMember (A.map (·.text)) = true := by
    rw [Segment.texts_of_content hA]
    exact b.ends
  have hnew : b.owner ∉ Segment.headerNames A := by
    rw [Segment.headerNames_of_content hA]
    exact b.new
  obtain ⟨line, ls, zs, hcollect⟩ := Section.exists_differ b.place hX hX' (hA.trans hA'.symm) hend
    hnew options.duplicates
  rw [ofText_result, ofText_result, hcut, hcut']
  change Logged.Agree _ _ _ at hcollect
  generalize (Source.collect options.duplicates []
    (Section.ofSegments (Segment.cut before ++ X :: A))).result = r, (Source.collect
    options.duplicates [] (Section.ofSegments (Segment.cut before ++ X' :: A'))).result = r'
    at hcollect ⊢
  cases hcollect with
  | error => exact .error
  | ok hdiffer => exact ofFound_differ hX.member? hX'.member? hdiffer

end Declaration

/-! ## A block with such a member -/

namespace BrokenMember

def rowsStart : Text := "type Mode = 'a' | 'b'\ninterface Table \x7b\n  id: string;\n".toList

/-- The lines of a member but for the last, with a comment that is dropped. -/
def rowsLines : List CodeLine :=
  [⟨"  /* Rows. */ rows?: Record<string, ".toList, some " by name <".toList⟩,
    ⟨"    (Mode |".toList, none⟩]

def rows : BrokenMember rowsStart rowsLines "    number)[]>".toList
    "  size: number;\n\x7d\ntype Rows = Table[]\n".toList where
  owner := "Table".toList
  member := ⟨"rows".toList, true, "Record<string,      (Mode |     number)[]>".toList, none,
    .record "string".toList "(Mode |     number)[]".toList⟩
  begins := ⟨by decide +kernel, by decide +kernel, rfl⟩
  place := by decide +kernel
  breaks := by decide +kernel
  oneLine := by decide +kernel
  holds := by decide +kernel
  done := by decide +kernel
  line := by decide +kernel
  ends := by decide +kernel
  new := by decide +kernel

/-- A comment that looks like code, behind a semicolon or not. -/
def note (close : Bool) : Cutter.TrailingComment where
  close := close
  blanks := [' ']
  comment := " it's \x7ball\x7d | rows ".toList
  blank := by decide
  sameLine := by decide
  oneLine := by decide
  spoken := by decide
  closed := by decide

end BrokenMember

namespace Declaration

theorem ofText_rows :
    BrokenMember.rows.plain.description = some "Rows.".toList ∧
    (BrokenMember.rows.described (BrokenMember.note false)).description =
      some "it's \x7ball\x7d | rows".toList ∧
    (BrokenMember.rows.described (BrokenMember.note true)).description = some "Rows.".toList ∧
    ∀ close options, Logged.Agree
      (DifferIn "Table".toList BrokenMember.rows.plain
        (BrokenMember.rows.described (BrokenMember.note close)))
      (ofText options (BrokenMember.rowsStart ++
        "  /* Rows. */ rows?: Record<string,      (Mode |     number)[]>".toList ++
        terminator close ++ "\n  size: number;\n\x7d\ntype Rows = Table[]\n".toList)).result
      (ofText options (BrokenMember.rowsStart ++
        "  /* Rows. */ rows?: Record<string, // by name <\n    (Mode |\n    number)[]>".toList ++
        (BrokenMember.note close).text ++
        "\n  size: number;\n\x7d\ntype Rows = Table[]\n".toList)).result := by
  have hflat : BrokenMember.rowsStart ++
      CodeLine.flat BrokenMember.rowsLines "    number)[]>".toList = BrokenMember.rowsStart ++
        "  /* Rows. */ rows?: Record<string,      (Mode |     number)[]>".toList := by
    decide +kernel
  have hbroken : BrokenMember.rowsStart ++
      CodeLine.broken BrokenMember.rowsLines "    number)[]>".toList = BrokenMember.rowsStart ++
        "  /* Rows. */ rows?: Record<string, // by name <\n    (Mode |\n    number)[]>".toList := by
    decide +kernel
  refine ⟨by decide +kernel, by decide +kernel, by decide +kernel, fun close options => ?_⟩
  rw [← hflat, ← hbroken]
  exact ofText_brokenMember BrokenMember.rows (BrokenMember.note close) options

/-- Behind a semicolon the comment of a member over several lines is lost. On one line it is the
description, and so it is without the semicolon. -/
theorem ofText_lostComment :
    (ofText {} "interface A \x7b\n  m: Record<string,\n    number>; // c\n\x7d\n".toList).result =
      .ok [⟨"A".toList, .block [⟨"m".toList, false, "Record<string,     number>".toList, none,
        .record "string".toList "number".toList⟩]⟩] ∧
    (ofText {} "interface A \x7b\n  m: Record<string,\n    number> // c\n\x7d\n".toList).result =
      .ok [⟨"A".toList, .block [⟨"m".toList, false, "Record<string,     number>".toList,
        some "c".toList, .record "string".toList "number".toList⟩]⟩] ∧
    (ofText {} "interface A \x7b\n  m: Record<string,     number>; // c\n\x7d\n".toList).result =
      .ok [⟨"A".toList, .block [⟨"m".toList, false, "Record<string,     number>".toList,
        some "c".toList, .record "string".toList "number".toList⟩]⟩] := by
  decide +kernel

end Declaration

end InterfaceForms

import InterfaceForms.Proofs.CommentedBlocks
import InterfaceForms.Proofs.TextOrder

/-!
# Declarations with comments

In a block of members, comments behind the members describe them and change nothing else, in the
block and in the rest of the text, as long as none of them ends in an opening brace. With a comment
that does, its member is read as one whose type is an object, and the members after it are lost.

* `Declaration.ofText_commentedBlock`: the declarations of a text with and without the comments.
-/

namespace InterfaceForms

/-! ## The section of a block -/

namespace Section

variable {segments : List Segment} {members : List Member}

/-- The segments of members are the lines of a block, up to its closing brace. -/
theorem readBlock_members (owner : Text) (lines : List MemberLine)
    (h : List.Forall₂ Segment.GivesMember segments members) {brace : Segment}
    (hbrace : brace.text = ['\x7d']) (rest : List Segment) :
    readBlock owner 0 lines (segments ++ brace :: rest) =
      pure (lines.reverse ++ segments.map fun s => ⟨s.text, s.doc⟩) := by
  induction h generalizing lines with
  | nil =>
    rw [List.nil_append, readBlock_end owner lines rest hbrace, List.map_nil, List.append_nil]
  | @cons s m segments members hs _ ih =>
    have hclosed : beforeBrace? s.text = none := by simp [beforeBrace?, hs.opens]
    have hline : MemberLine.ofSegment s = ⟨s.text, s.doc⟩ := by
      rw [MemberLine.ofSegment, hclosed]
    have hquiet : MemberLine.warning? owner s = none := by rw [MemberLine.warning?, hclosed]; rfl
    have hne := Segment.ne_brace_of_startsMember hs.starts
    rw [List.cons_append, readBlock_member owner lines _ hne hs.starts, hquiet, hs.opens,
      if_neg Bool.false_ne_true, ih, hline, List.reverse_cons, List.append_assoc]
    rfl

end Section

/-- The lines of members are read as the members. -/
theorem MemberLine.mapM_member? {segments : List Segment} {members : List Member}
    (h : List.Forall₂ Segment.GivesMember segments members) :
    (segments.map fun s => (⟨s.text, s.doc⟩ : MemberLine)).mapM MemberLine.member? =
      .ok (members.map some) := by
  rw [Except.mapM_ok, List.forall₂_map_left_iff, List.forall₂_map_right_iff]
  exact h.imp fun _ _ hs => hs.member?

/-- A section that holds a block of members is read as the block. -/
theorem Header.Opens.read_members {h : Header} {line : Nat} {opener : List (Segment × Ending)}
    (hopens : h.Opens line opener) (hfits : ∀ p ∈ opener, p.1.Fits p.2)
    {segments : List Segment} {members : List Member}
    (hmembers : List.Forall₂ Segment.GivesMember segments members) {brace : Segment}
    (hbrace : brace.text = ['\x7d']) {rest : List Segment}
    (hrest : ∀ s ∈ rest, Header.ofLine? s.text = none) :
    ∃ (s : Section) (source : Source),
      Section.ofSegments (opener.map Prod.fst ++ (segments ++ brace :: rest)) = [s] ∧
      s.header = h ∧ s.read = pure source ∧
      Declaration.ofSource source = .ok ⟨h.name, .block members⟩ := by
  have hbody : ∀ s ∈ segments ++ brace :: rest, Header.ofLine? s.text = none := by
    intro s hs
    rcases List.mem_append.1 hs with hs | hs
    · obtain ⟨m, -, hm⟩ := exists_of_forall₂ hmembers.flip s hs
      exact hm.header
    · rcases List.mem_cons.1 hs with rfl | hs
      · rw [hbrace]
        exact Header.ofLine?_of_sign (n := []) rfl (by decide) (by decide)
      · exact hrest s hs
  obtain ⟨s, hsection, hheader, hread⟩ := hopens.read hfits hbody
  rw [Section.readBlock_members h.name [] hmembers hbrace, pure_bind] at hread
  refine ⟨s, _, hsection, hheader, hread, ?_⟩
  simp only [Declaration.ofSource, List.reverse_nil, List.nil_append,
    MemberLine.mapM_member? hmembers]
  simp [bind, Except.bind, pure, Except.pure]

/-- The opener begins with a header. -/
theorem Header.Opens.head {h : Header} {line : Nat} {opener : List (Segment × Ending)}
    (hopens : h.Opens line opener) (rest : List Segment) :
    ∀ s ∈ (opener.map Prod.fst ++ rest).head?, ofLine? s.text ≠ none := by
  cases hopens with
  | sameLine hheader | nextLine hheader _ _ =>
    rintro s ⟨⟩
    rw [hheader]
    exact Option.some_ne_none h

/-! ## The sources -/

/-- The sources are the same, or they declare `d` and `d'`. -/
def Source.Declares (d d' : Declaration) (a b : Source) : Prop :=
  a = b ∨ Declaration.ofSource a = .ok d ∧ Declaration.ofSource b = .ok d'

namespace Source.Declares

variable {name : Text} {members members' : List Member} {a b : Source}

theorem name_eq (h : Declares ⟨name, .block members⟩ ⟨name, .block members'⟩ a b) :
    a.name = b.name := by
  rcases h with rfl | ⟨ha, hb⟩
  · rfl
  · rw [← Declaration.name_ofSource ha, ← Declaration.name_ofSource hb]

theorem isBlankAlias_of_block (h : Declaration.ofSource a = .ok ⟨name, .block members⟩) :
    a.isBlankAlias = false := by
  rcases Declaration.ofSource_cases h with ⟨lines, _, hbody, -, -⟩ | ⟨_, _, -, -, ⟨⟩⟩
  rw [Source.isBlankAlias, hbody]

theorem isBlankAlias_eq (h : Declares ⟨name, .block members⟩ ⟨name, .block members'⟩ a b) :
    a.isBlankAlias = b.isBlankAlias := by
  rcases h with rfl | ⟨ha, hb⟩
  · rfl
  · rw [isBlankAlias_of_block ha, isBlankAlias_of_block hb]

end Source.Declares

/-! ## Blocks of members -/

/-- Where `before` ends, a block is open. Each of the lines holds one of its members, and `after`
closes it. -/
structure MemberBlock (before : Text) (lines : List CodeLine) (after : Text) where
  header : Header
  line : Nat
  /-- The segments before the header. -/
  earlier : List Segment
  opener : List (Segment × Ending)
  members : List (Segment × Member)
  before_eq : (Cutter.start.run before).flush.done.reverse = earlier ++ opener.map Prod.fst
  opens : header.Opens line opener
  fits : ∀ p ∈ opener, p.1.Fits p.2
  holds : (Cutter.start.run before).Members lines members
  mode : ((Cutter.start.run before).run (lines.flatMap CodeLine.bare)).mode = .code
  nested : ((Cutter.start.run before).run (lines.flatMap CodeLine.bare)).nested = false
  closes : Text.lead? after = some '\x7d'

namespace MemberBlock

variable {before after : Text} {lines : List CodeLine} (b : MemberBlock before lines after)

/-- The members without the comments. A block comment before a member describes it. -/
def read : List Member := b.members.map fun p => { p.2 with description := p.1.doc }

/-- The block without the comments. -/
def plain : Declaration := ⟨b.header.name, .block b.read⟩

/-- The block with the comments: these describe their members. -/
def described : Declaration :=
  ⟨b.header.name, .block (List.zipWith CodeLine.described lines b.read)⟩

theorem gives : List.Forall₂ Segment.GivesMember (b.members.map Prod.fst) b.read := by
  rw [read, List.forall₂_map_left_iff, List.forall₂_map_right_iff, List.forall₂_same]
  intro p hp
  obtain ⟨_, -, hmember⟩ := exists_of_forall₂ b.holds.forall₂ p hp
  exact hmember.gives

/-- The segments of the text, with and without the comments. -/
theorem exists_cut
    (hbrace : ∀ line ∈ lines, ∀ words ∈ line.words?, Text.endsWith '\x7b' words = false) :
    ∃ (segments' : List Segment) (brace : Segment) (rest : List Segment),
      List.Forall₂ Segment.GivesMember segments' (List.zipWith CodeLine.described lines b.read) ∧
      brace.text = ['\x7d'] ∧
      Segment.cut (before ++ lines.flatMap CodeLine.bare ++ after) = b.earlier ++
        (b.opener.map Prod.fst ++ (b.members.map Prod.fst ++ brace :: rest)) ∧
      Segment.cut (before ++ lines.flatMap CodeLine.ended ++ after) = b.earlier ++
        (b.opener.map Prod.fst ++ (segments' ++ brace :: rest)) := by
  obtain ⟨segments', hgives, hs, hr, habreast⟩ :=
    (Cutter.Abreast.refl (Cutter.counted_start.run before)).lines b.holds hbrace
  obtain ⟨brace, rest, htext, hplain, hcommented⟩ := habreast.closed b.mode b.nested b.closes
  refine ⟨segments', brace, rest, hgives, htext, ?_, ?_⟩
  · rw [Segment.cut, Cutter.run_append, Cutter.run_append, hplain, hs]
    simp only [List.reverse_append, List.reverse_reverse, b.before_eq, List.append_assoc]
  · rw [Segment.cut, Cutter.run_append, Cutter.run_append, hcommented, hr]
    simp only [List.reverse_append, List.reverse_reverse, b.before_eq, List.append_assoc]

/-- The sections of the text: those of the block differ, and the others do not. -/
theorem sections_related
    (hbrace : ∀ line ∈ lines, ∀ words ∈ line.words?, Text.endsWith '\x7b' words = false) :
    List.Forall₂ (Section.Related (Source.Declares b.plain b.described))
      (Section.ofSegments (Segment.cut (before ++ lines.flatMap CodeLine.bare ++ after)))
      (Section.ofSegments (Segment.cut (before ++ lines.flatMap CodeLine.ended ++ after))) := by
  obtain ⟨segments', brace, rest, hgives, htext, hplain, hcommented⟩ := b.exists_cut hbrace
  obtain ⟨body, later, rfl, hbody, hlater⟩ := Section.exists_body rest
  have hsplit : ∀ segments : List Segment, Section.ofSegments (b.earlier ++
      (b.opener.map Prod.fst ++ (segments ++ brace :: (body ++ later)))) =
      Section.ofSegments b.earlier ++
        (Section.ofSegments (b.opener.map Prod.fst ++ (segments ++ brace :: body)) ++
          Section.ofSegments later) := by
    intro segments
    rw [Section.ofSegments_append_header b.earlier (b.opens.head _),
      ← Section.ofSegments_append_header _ hlater]
    simp only [List.append_assoc, List.cons_append]
  obtain ⟨s, source, hs, hheader, hread, hdeclares⟩ :=
    b.opens.read_members b.fits b.gives htext hbody
  obtain ⟨s', source', hs', hheader', hread', hdeclares'⟩ :=
    b.opens.read_members b.fits hgives htext hbody
  have hrefl : ∀ sections : List Section,
      List.Forall₂ (Section.Related (Source.Declares b.plain b.described)) sections sections := by
    intro sections
    refine List.forall₂_same.2 fun x _ => ⟨rfl, ?_⟩
    exact Logged.Agree.imp (Logged.results_refl x.read) fun _ _ => .inl
  rw [hplain, hcommented, hsplit, hsplit, hs, hs']
  refine List.rel_append (hrefl _) (List.rel_append (.cons ⟨?_, ?_⟩ .nil) (hrefl _))
  · rw [hheader, hheader']
  · rw [hread, hread']
    exact Logged.results.pure (.inr ⟨hdeclares, hdeclares'⟩)

end MemberBlock

namespace Declaration

variable {before after : Text} {lines : List CodeLine}

/-- Comments behind the members of a block describe these members, one to a line, if they end in no
opening brace. Else the declarations of the text are the same with them as without, in the same
order, and so is the error if there is one. -/
theorem ofText_commentedBlock (b : MemberBlock before lines after)
    (hbrace : ∀ line ∈ lines, ∀ words ∈ line.words?, Text.endsWith '\x7b' words = false)
    (options : Options) :
    lines.length = b.read.length ∧
    Logged.Agree (List.Forall₂ fun d d' => d' = d ∨ d = b.plain ∧ d' = b.described)
      (ofText options (before ++ lines.flatMap CodeLine.bare ++ after)).result
      (ofText options (before ++ lines.flatMap CodeLine.ended ++ after)).result := by
  refine ⟨b.holds.forall₂.length_eq.trans (List.length_map _).symm, ?_⟩
  have hscan := Source.scan_related (fun _ _ => Source.Declares.name_eq)
    (fun _ _ => Source.Declares.isBlankAlias_eq) options.duplicates (b.sections_related hbrace)
  refine Logged.results.bind hscan fun sources sources' hsources => ?_
  refine Logged.Agree.mapM hsources fun source source' h => ?_
  rcases h with rfl | ⟨hplain, hdescribed⟩
  · cases ofSource source with
    | error e => exact .error
    | ok d => exact .ok (.inl rfl)
  · rw [hplain, hdescribed]
    exact .ok (.inr ⟨rfl, rfl⟩)

end Declaration

/-! ## Two blocks -/

namespace MemberBlock

/-- The beginning of a block in a text of two declarations. -/
def rowStart : Text := "type Mode = 'a' | 'b'\ninterface Row \x7b\n".toList

/-- A member with a semicolon and one without, a block comment, two members on one line, and
comments that look like code. -/
def rowLines : List CodeLine :=
  [⟨"  key: string; ".toList, some " \x7bprimary\x7d | it's".toList⟩,
    ⟨"  /* Wide. */\n  size?: 'a' | '//' ".toList, some " interface X = \x7d".toList⟩,
    ⟨"  mode: Mode;".toList, none⟩, ⟨" rest: Record<string, Row[]>".toList, some "///".toList⟩]

def row : MemberBlock rowStart rowLines "\x7d\n".toList where
  header := ⟨"Row".toList, ['\x7b']⟩
  line := 2
  earlier := [⟨"type Mode = 'a' | 'b'".toList, 1, none⟩]
  opener := [(⟨"interface Row \x7b".toList, 2, none⟩, .opening)]
  members := [
    (⟨"key: string".toList, 3, none⟩,
      ⟨"key".toList, false, "string".toList, none, .named "string".toList⟩),
    (⟨"size?: 'a' | '//'".toList, 5, some "Wide.".toList⟩,
      ⟨"size".toList, true, "'a' | '//'".toList, none, .enum ["a".toList, "//".toList]⟩),
    (⟨"mode: Mode".toList, 6, none⟩,
      ⟨"mode".toList, false, "Mode".toList, none, .named "Mode".toList⟩),
    (⟨"rest: Record<string, Row[]>".toList, 6, none⟩,
      ⟨"rest".toList, false, "Record<string, Row[]>".toList, none,
        .record "string".toList "Row[]".toList⟩)]
  before_eq := by decide +kernel
  opens := .sameLine (s := ⟨"interface Row \x7b".toList, 2, none⟩) (by decide +kernel)
  fits := List.forall_mem_singleton.2 (by decide : Text.endsWith _ _ = true)
  holds := by decide +kernel
  mode := by decide +kernel
  nested := by decide +kernel
  closes := by decide +kernel

/-- A block with a comment that ends in an opening brace. -/
def braceLines : List CodeLine :=
  [⟨"  a: string; ".toList, some " see \x7b".toList⟩, ⟨"  b: number;\n".toList, none⟩]

def braceBlock : MemberBlock "interface Pair \x7b\n".toList braceLines "\x7d\n".toList where
  header := ⟨"Pair".toList, ['\x7b']⟩
  line := 1
  earlier := []
  opener := [(⟨"interface Pair \x7b".toList, 1, none⟩, .opening)]
  members := [
    (⟨"a: string".toList, 2, none⟩,
      ⟨"a".toList, false, "string".toList, none, .named "string".toList⟩),
    (⟨"b: number".toList, 3, none⟩,
      ⟨"b".toList, false, "number".toList, none, .named "number".toList⟩)]
  before_eq := by decide +kernel
  opens := .sameLine (s := ⟨"interface Pair \x7b".toList, 1, none⟩) (by decide +kernel)
  fits := List.forall_mem_singleton.2 (by decide : Text.endsWith _ _ = true)
  holds := by decide +kernel
  mode := by decide +kernel
  nested := by decide +kernel
  closes := by decide +kernel

end MemberBlock

namespace Declaration

theorem ofText_row :
    (∀ line ∈ MemberBlock.rowLines, ∀ words ∈ line.words?, Text.endsWith '\x7b' words = false) ∧
    ∀ options, MemberBlock.rowLines.length = MemberBlock.row.read.length ∧
      Logged.Agree (List.Forall₂ fun d d' =>
          d' = d ∨ d = MemberBlock.row.plain ∧ d' = MemberBlock.row.described)
        (ofText options (MemberBlock.rowStart ++ MemberBlock.rowLines.flatMap CodeLine.bare ++
          "\x7d\n".toList)).result
        (ofText options (MemberBlock.rowStart ++ MemberBlock.rowLines.flatMap CodeLine.ended ++
          "\x7d\n".toList)).result := by
  have hbrace : ∀ line ∈ MemberBlock.rowLines, ∀ words ∈ line.words?,
      Text.endsWith '\x7b' words = false := by decide +kernel
  exact ⟨hbrace, ofText_commentedBlock MemberBlock.row hbrace⟩

/-- With a comment that ends in an opening brace, a member of two is left, and its description is
another. -/
theorem ofText_braceBlock :
    (ofText {} ("interface Pair \x7b\n".toList ++ MemberBlock.braceLines.flatMap CodeLine.bare ++
      "\x7d\n".toList)).result = .ok [MemberBlock.braceBlock.plain] ∧
    (ofText {} ("interface Pair \x7b\n".toList ++ MemberBlock.braceLines.flatMap CodeLine.ended ++
      "\x7d\n".toList)).result = .ok [⟨"Pair".toList, .block
        [⟨"a".toList, false, "string".toList, some "see \x7b\x7d".toList,
          .named "string".toList⟩]⟩] := by
  decide +kernel

end Declaration

end InterfaceForms

import InterfaceForms.Proofs.Blocks
import InterfaceForms.Proofs.Walk

/-!
# The sources that a walk finds

Reading a text section by section and walking over its segments find the same sources, with the
same warnings. So what the walk keeps is true of the sources of every text.

* `Walk.found_run_section`: a walk over a section puts its source in its place.
* `Walk.scan_eq`: the records of a text are those of its sources.
* `Source.scan_walk`: what holds during the walk and of the records at its end.
-/

namespace InterfaceForms

/-! ## The records of sources -/

/-- The record of an alias that never received an expression. -/
def Record.isBlankAlias (r : Record) : Bool := r.target?.any Text.blank

namespace Source

/-- The record of a source. -/
def record (source : Source) : Record :=
  match source.body with
  | .block lines => ⟨source.name, source.line, none, lines.map (·.text), lines.map (·.doc)⟩
  | .alias expr => ⟨source.name, source.line, some expr, [], []⟩

def records (sources : List Source) : Entries Record := sources.map fun s => (s.name, s.record)

theorem get?_records (sources : List Source) (name : Text) :
    Entries.get? name (records sources) =
      (sources.find? (·.name = name)).map record := by
  rw [Entries.get?, records, List.find?_map, Option.map_map]
  rfl

theorem insert_records (source : Source) (sources : List Source) :
    Entries.insert source.name source.record (records sources) =
      records (put source sources) := by
  induction sources with
  | nil => rfl
  | cons first sources ih =>
    by_cases h : first.name = source.name
    · simp [records, put, Entries.insert, h]
    · simpa [records, put, Entries.insert, h] using ih

theorem isBlankAlias_record (source : Source) :
    source.record.isBlankAlias = source.isBlankAlias := by
  obtain ⟨_, _, lines | expr⟩ := source
  · rfl
  · rfl

end Source

/-! ## Sections -/

namespace Section

/-- The lines up to the next header. -/
theorem exists_body (segments : List Segment) : ∃ body rest, segments = body ++ rest ∧
    (∀ s ∈ body, Header.ofLine? s.text = none) ∧
    ∀ s ∈ rest.head?, Header.ofLine? s.text ≠ none := by
  induction segments with
  | nil => exact ⟨[], [], rfl, nofun, nofun⟩
  | cons s segments ih =>
    cases hs : Header.ofLine? s.text with
    | none =>
      obtain ⟨body, rest, rfl, hbody, hrest⟩ := ih
      exact ⟨s :: body, rest, rfl, List.forall_mem_cons.2 ⟨hs, hbody⟩, hrest⟩
    | some h =>
      refine ⟨[], s :: segments, rfl, nofun, ?_⟩
      rintro _ ⟨⟩
      rw [hs]
      exact Option.some_ne_none h

theorem takeWhile_append_header (before : List Segment) {segments : List Segment}
    (h : ∀ s ∈ segments.head?, Header.ofLine? s.text ≠ none) :
    (before ++ segments).takeWhile (fun s => (Header.ofLine? s.text).isNone) =
      before.takeWhile fun s => (Header.ofLine? s.text).isNone := by
  induction before with
  | nil =>
    cases segments with
    | nil => rfl
    | cons first segments => simp [h first rfl]
  | cons s before ih => rw [List.cons_append, List.takeWhile_cons, List.takeWhile_cons, ih]

/-- What begins with a header does not go on with the sections before. -/
theorem ofSegments_append_header (before : List Segment) {segments : List Segment}
    (h : ∀ s ∈ segments.head?, Header.ofLine? s.text ≠ none) :
    ofSegments (before ++ segments) = ofSegments before ++ ofSegments segments := by
  induction before with
  | nil => rfl
  | cons s before ih =>
    rw [List.cons_append, ofSegments_eq, ofSegments_eq, ih, takeWhile_append_header before h]
    cases Header.ofLine? s.text with
    | none => rfl
    | some header => rfl

/-- What the section declares its name to be. -/
def readBody (s : Section) : Logged SourceBody :=
  match s.header.aliasExpr? with
  | none => .block <$> readBlock s.header.name 0 [] s.body
  | some expr => readAlias s.header.name expr s.body

theorem read_eq (s : Section) :
    s.read = s.readBody >>= fun body => pure ⟨s.header.name, s.line, body⟩ := by
  unfold read readBody
  cases s.header.aliasExpr? with
  | none => rfl
  | some expr => rfl

end Section

/-! ## Walks -/

namespace Walk

/-- The walk in a declaration of which `source` has been read, after others. -/
def within (found : Entries Record) (source : Source) (place : Place) : Walk :=
  ⟨Entries.insert source.name source.record found, place⟩

variable {policy : DuplicatePolicy} {found : Entries Record} {s : Segment}
  {body rest : List Segment}

/-- At a header and at the end it does not matter where the walk stands. -/
theorem found_run_of_head (hrest : ∀ s ∈ rest.head?, Header.ofLine? s.text ≠ none)
    (p p' : Place) :
    Walk.found <$> run policy ⟨found, p⟩ rest = Walk.found <$> run policy ⟨found, p'⟩ rest := by
  cases rest with
  | nil => rfl
  | cons s rest =>
    obtain ⟨h, hs⟩ := Option.ne_none_iff_exists'.1 (hrest s rfl)
    have hreport : report policy ⟨found, p⟩ s = report policy ⟨found, p'⟩ s := by
      simp only [report, hs]
    rw [run, run, hreport, next_of_header hs, next_of_header hs]
    rfl

/-- Outside declarations a line changes nothing. -/
theorem run_outside (hbody : ∀ s ∈ body, Header.ofLine? s.text = none) :
    run policy ⟨found, .outside⟩ (body ++ rest) = run policy ⟨found, .outside⟩ rest := by
  induction body with
  | nil => rfl
  | cons s body ih =>
    have hs := hbody s List.mem_cons_self
    have hreport : report policy ⟨found, .outside⟩ s = pure () := by
      simp only [report, hs]
    rw [List.cons_append, run, hreport, pure_bind, next_of_line hs]
    exact ih fun x hx => hbody x (List.mem_cons_of_mem s hx)

/-! ## Blocks -/

variable {name : Text} {line nested : Nat} {lines : List MemberLine}

theorem report_block (hs : Header.ofLine? s.text = none) (nested : Nat) :
    report policy ⟨found, .block name nested⟩ s =
      ⟨if nested = 0 ∧ MemberLine.startsMember s.text then (MemberLine.warning? name s).toList
        else [], .ok ()⟩ := by
  unfold report MemberLine.warning?
  rw [hs]
  cases nested with
  | succ nested => simp; rfl
  | zero =>
    cases Section.beforeBrace? s.text with
    | none => simp; rfl
    | some head => by_cases h : MemberLine.startsMember s.text = true <;> simp [h] <;> rfl

/-- A member is added to the record as its line is to those read. -/
theorem push_record (text : Text) (doc : Option Text) :
    Record.push text doc (Source.record ⟨name, line, .block lines.reverse⟩) =
      Source.record ⟨name, line, .block (⟨text, doc⟩ :: lines).reverse⟩ := by
  simp [Record.push, Source.record]

theorem extendLast_record (alternative : Text) :
    Record.extendLast alternative (Source.record ⟨name, line, .block lines.reverse⟩) =
      Source.record ⟨name, line, .block (MemberLine.extendLast alternative lines).reverse⟩ := by
  cases lines with
  | nil => rfl
  | cons last lines =>
    simp [Record.extendLast, Source.record, MemberLine.extendLast, MemberLine.extend]

/-- A line outside the inner pairs of braces changes the record as it changes the lines read. -/
theorem blockLine_member (hbrace : s.text ≠ ['\x7d'])
    (hmember : MemberLine.startsMember s.text = true) :
    blockLine (Entries.insert name (Source.record ⟨name, line, .block lines.reverse⟩) found)
        name 0 s =
      within found ⟨name, line, .block (MemberLine.ofSegment s :: lines).reverse⟩
        (.block name (if Text.endsWith '\x7b' s.text then 1 else 0)) := by
  have hbar := MemberLine.not_bar_of_startsMember hmember
  rw [blockLine, if_neg hbrace, if_neg (Nat.lt_irrefl 0), hbar, if_neg Bool.false_ne_true,
    if_pos hmember]
  cases hopen : Text.endsWith '\x7b' s.text with
  | true =>
    simp only [Section.beforeBrace?, MemberLine.ofSegment, hopen, if_true, within,
      Entries.update_insert, push_record]
  | false =>
    simp only [Section.beforeBrace?, MemberLine.ofSegment, hopen, Bool.false_eq_true, if_false,
      within, Entries.update_insert, push_record]

theorem blockLine_other (hbrace : s.text ≠ ['\x7d'])
    (hmember : MemberLine.startsMember s.text = false) :
    blockLine (Entries.insert name (Source.record ⟨name, line, .block lines.reverse⟩) found)
        name 0 s =
      within found ⟨name, line, .block
        (if Text.startsWith '|' s.text then MemberLine.extendLast s.text lines
          else lines).reverse⟩ (.block name 0) := by
  rw [blockLine, if_neg hbrace, if_neg (Nat.lt_irrefl 0), hmember, if_neg Bool.false_ne_true]
  split
  · rw [Entries.update_insert, extendLast_record]
    rfl
  · rfl

theorem found_run_block (lines : List MemberLine)
    (hbody : ∀ s ∈ body, Header.ofLine? s.text = none)
    (hrest : ∀ s ∈ rest.head?, Header.ofLine? s.text ≠ none) :
    Walk.found <$> run policy
        (within found ⟨name, line, .block lines.reverse⟩ (.block name nested)) (body ++ rest) =
      Section.readBlock name nested lines body >>= fun read =>
        Walk.found <$> run policy (within found ⟨name, line, .block read⟩ .outside) rest := by
  induction body generalizing nested lines with
  | nil =>
    rw [Section.readBlock, pure_bind]
    exact found_run_of_head hrest _ _
  | cons s body ih =>
    have hs := hbody s List.mem_cons_self
    have hbody' : ∀ s ∈ body, Header.ofLine? s.text = none :=
      fun x hx => hbody x (List.mem_cons_of_mem s hx)
    rw [List.cons_append, run, next_of_line hs, map_bind]
    unfold within
    rw [report_block hs]
    dsimp only
    have hsilent : (⟨[], .ok ()⟩ : Logged Unit) = pure () := rfl
    by_cases hbrace : s.text = ['\x7d']
    · have hnone : ¬ (nested = 0 ∧ MemberLine.startsMember s.text = true) := by
        rw [hbrace]
        exact fun h => absurd h.2 (by decide +kernel)
      rw [if_neg hnone, hsilent, pure_bind]
      cases nested with
      | zero =>
        rw [blockLine, if_pos hbrace, Section.readBlock_end name lines body hbrace, pure_bind]
        exact congrArg _ (run_outside hbody')
      | succ nested =>
        rw [blockLine, if_pos hbrace, Section.readBlock_brace name lines body hbrace]
        exact ih _ hbody'
    cases nested with
    | succ nested =>
      rw [if_neg (fun h => Nat.succ_ne_zero nested h.1), hsilent, pure_bind, blockLine,
        if_neg hbrace, if_pos (Nat.succ_pos nested),
        Section.readBlock_inner name lines body hbrace nested]
      exact ih _ hbody'
    | zero =>
      cases hmember : MemberLine.startsMember s.text with
      | true =>
        rw [if_pos ⟨rfl, rfl⟩, blockLine_member hbrace hmember,
          Section.readBlock_member name lines body hbrace hmember, bind_assoc]
        exact bind_congr fun _ => ih _ hbody'
      | false =>
        rw [if_neg (fun h => Bool.false_ne_true h.2), hsilent, pure_bind,
          blockLine_other hbrace hmember,
          Section.readBlock_other name lines body hbrace hmember]
        exact ih _ hbody'

/-! ## Aliases -/

theorem report_alias (hs : Header.ofLine? s.text = none) :
    report policy ⟨found, .alias name⟩ s = pure () := by
  simp only [report, hs]

/-- An alias without members is like a block without lines. -/
theorem setTarget_record (expr : Text) (target? : Option Text) :
    Record.setTarget target? (Source.record ⟨name, line, .alias expr⟩) =
      Source.record ⟨name, line, match target? with
        | none => .block []
        | some expr => .alias expr⟩ := by
  cases target? with
  | none => rfl
  | some expr => rfl

theorem aliasLine_record (expr : Text) (s : Segment) :
    aliasLine (Entries.insert name (Source.record ⟨name, line, .alias expr⟩) found) name s =
      if s.text = ['\x7b'] && Text.blank expr then
        within found ⟨name, line, .block []⟩ (.block name 0)
      else if Text.startsWith '|' s.text || Text.blank expr
          || Text.endsWith '|' (Text.trimEnd expr) then
        within found
          ⟨name, line, .alias (if expr = [] then s.text else expr ++ ' ' :: s.text)⟩ (.alias name)
      else within found ⟨name, line, .alias expr⟩ .outside := by
  have hexpr : ((Entries.get? name (Entries.insert name
      (Source.record ⟨name, line, .alias expr⟩) found)).bind (·.target?)).getD [] = expr := by
    rw [Entries.get?_insert_self]
    rfl
  unfold aliasLine
  simp only [hexpr, Entries.update_insert, setTarget_record, within]

theorem found_run_alias (hbody : ∀ s ∈ body, Header.ofLine? s.text = none)
    (hrest : ∀ s ∈ rest.head?, Header.ofLine? s.text ≠ none) (expr : Text) :
    Walk.found <$> run policy
        (within found ⟨name, line, .alias expr⟩ (.alias name)) (body ++ rest) =
      Section.readAlias name expr body >>= fun read =>
        Walk.found <$> run policy (within found ⟨name, line, read⟩ .outside) rest := by
  induction body generalizing expr with
  | nil =>
    rw [Section.readAlias, pure_bind]
    exact found_run_of_head hrest _ _
  | cons s body ih =>
    have hs := hbody s List.mem_cons_self
    have hbody' : ∀ s ∈ body, Header.ofLine? s.text = none :=
      fun x hx => hbody x (List.mem_cons_of_mem s hx)
    rw [List.cons_append, run, next_of_line hs, map_bind]
    unfold within
    rw [report_alias hs, pure_bind]
    dsimp only
    rw [aliasLine_record, Section.readAlias]
    split
    · -- The brace turns the alias into a block that has no lines yet.
      rw [bind_map_left]
      exact found_run_block [] hbody' hrest
    split
    · exact ih hbody' _
    · rw [pure_bind]
      exact congrArg _ (run_outside hbody')

theorem report_header {h : Header} (hs : Header.ofLine? s.text = some h) (sources : List Source)
    (place : Place) (body : List Segment) :
    report policy ⟨Source.records sources, place⟩ s =
      Source.checkDuplicate policy sources ⟨h, s.line, body⟩ := by
  unfold report Source.checkDuplicate
  rw [hs]
  dsimp only
  rw [Source.get?_records]
  cases sources.find? (·.name = h.name) with
  | none => rfl
  | some earlier =>
    cases policy with
    | reject => rfl
    | lastWins =>
      obtain ⟨_, _, lines | expr⟩ := earlier
      · rfl
      · rfl

/-- A walk over a section puts its source in its place. -/
theorem found_run_section {h : Header} (hs : Header.ofLine? s.text = some h)
    (hbody : ∀ s ∈ body, Header.ofLine? s.text = none)
    (hrest : ∀ s ∈ rest.head?, Header.ofLine? s.text ≠ none) (sources : List Source) :
    Walk.found <$> run policy ⟨Source.records sources, .outside⟩ (s :: (body ++ rest)) =
      Source.checkDuplicate policy sources ⟨h, s.line, body⟩ >>= fun _ =>
        Section.read ⟨h, s.line, body⟩ >>= fun source =>
          Walk.found <$>
            run policy ⟨Source.records (Source.put source sources), .outside⟩ rest := by
  have hput : ∀ read : SourceBody,
      (⟨Source.records (Source.put ⟨h.name, s.line, read⟩ sources), .outside⟩ : Walk) =
        within (Source.records sources) ⟨h.name, s.line, read⟩ .outside := by
    intro read
    rw [within, Source.insert_records]
  rw [run, next_of_header hs, map_bind, report_header hs sources .outside body]
  refine bind_congr fun _ => ?_
  cases hexpr : h.aliasExpr? with
  | none =>
    have hopen : openSection ⟨Source.records sources, .outside⟩ h s.line =
        within (Source.records sources) ⟨h.name, s.line, .block [].reverse⟩ (.block h.name 0) := by
      simp only [openSection, hexpr, Record.ofHeader]
      rfl
    have hread : Section.read ⟨h, s.line, body⟩ =
        Section.readBlock h.name 0 [] body >>= fun lines =>
          pure ⟨h.name, s.line, .block lines⟩ := by
      rw [Section.read_eq, Section.readBody]
      simp only [hexpr, bind_map_left]
    rw [hopen, hread, bind_assoc, found_run_block [] hbody hrest]
    simp only [pure_bind, hput]
  | some expr =>
    have hopen : openSection ⟨Source.records sources, .outside⟩ h s.line =
        within (Source.records sources) ⟨h.name, s.line, .alias expr⟩ (.alias h.name) := by
      simp only [openSection, hexpr, Record.ofHeader]
      rfl
    have hread : Section.read ⟨h, s.line, body⟩ =
        Section.readAlias h.name expr body >>= fun read => pure ⟨h.name, s.line, read⟩ := by
      rw [Section.read_eq, Section.readBody]
      simp only [hexpr]
    rw [hopen, hread, bind_assoc, found_run_alias hbody hrest expr]
    simp only [pure_bind, hput]

/-- The walk finds the sources of the sections. -/
theorem found_run (segments : List Segment) (sources : List Source) :
    Walk.found <$> run policy ⟨Source.records sources, .outside⟩ segments =
      Source.records <$> Source.collect policy sources (Section.ofSegments segments) := by
  induction hlen : segments.length using Nat.strongRecOn generalizing segments sources with
  | ind n ih =>
    obtain ⟨before, rest, rfl, hbefore, hrest⟩ := Section.exists_body segments
    rw [run_outside hbefore, Section.ofSegments_append hbefore]
    cases rest with
    | nil => rw [run, Section.ofSegments, Source.collect, map_pure, map_pure]
    | cons s rest =>
      obtain ⟨h, hs⟩ := Option.ne_none_iff_exists'.1 (hrest s rfl)
      obtain ⟨body, rest, rfl, hbody, hrest⟩ := Section.exists_body rest
      have hshort : rest.length < n := by
        simp only [List.length_append, List.length_cons] at hlen
        omega
      rw [found_run_section hs hbody hrest, Section.ofSegments_cons hs hbody hrest,
        Source.collect, map_bind]
      refine bind_congr fun _ => ?_
      rw [map_bind]
      exact bind_congr fun source => ih _ hshort _ _ rfl

/-! ## The records of a text -/

/-- Leaves out the aliases that never received an expression. -/
def dropBlankAliases (found : Entries Record) : Logged (Entries Record) :=
  ⟨(found.filter (·.2.isBlankAlias)).map fun e => .blankAlias e.1,
    .ok (found.filter fun e => !e.2.isBlankAlias)⟩

/-- The records of a text, read in one walk over its segments. -/
def scan (policy : DuplicatePolicy) (t : Text) : Logged (Entries Record) := do
  let w ← run policy start (Segment.cut t)
  let kept ← dropBlankAliases w.found
  if kept = [] then Logged.fail .noDeclarations else return kept

theorem dropBlankAliases_records (sources : List Source) :
    dropBlankAliases (Source.records sources) =
      Source.records <$> Source.dropBlankAliases sources := by
  simp only [dropBlankAliases, Source.dropBlankAliases, Source.records, List.filter_map,
    Function.comp_def, Source.isBlankAlias_record, List.map_map, Logged.map_eq]
  rfl

theorem scan_eq (policy : DuplicatePolicy) (t : Text) :
    scan policy t = Source.records <$> Source.scan policy t := by
  have hrun : Walk.found <$> run policy ⟨Source.records [], .outside⟩ (Segment.cut t) = _ :=
    found_run (Segment.cut t) []
  have hcollect : scan policy t = (Walk.found <$> run policy start (Segment.cut t)) >>= fun found =>
      dropBlankAliases found >>= fun kept =>
        if kept = [] then Logged.fail .noDeclarations else return kept := by
    rw [bind_map_left]
    rfl
  rw [hcollect]
  show (Walk.found <$> run policy ⟨Source.records [], .outside⟩ (Segment.cut t)) >>= _ = _
  rw [hrun, bind_map_left, Source.scan, map_bind]
  refine bind_congr fun found => ?_
  rw [dropBlankAliases_records, bind_map_left, map_bind]
  refine bind_congr fun kept => ?_
  have hempty : Source.records kept = [] ↔ kept = [] := List.map_eq_nil_iff
  by_cases hkept : kept = []
  · rw [if_pos hkept, if_pos (hempty.2 hkept)]
    rfl
  · rw [if_neg hkept, if_neg fun h => hkept (hempty.1 h), map_pure]

end Walk

/-! ## The names of a text -/

namespace Section

/-- The section leaves an alias that never received an expression. -/
def endsBlank (s : Section) : Bool := s.read.result.toOption.any Source.isBlankAlias

/-- The last section with the name. -/
def last? (name : Text) (sections : List Section) : Option Section :=
  sections.reverse.find? (·.header.name = name)

theorem name_of_read {s : Section} {source : Source} (h : s.read.result = .ok source) :
    source.name = s.header.name := by
  rw [read_eq] at h
  obtain ⟨_, _, rfl⟩ := Logged.bind_pure_ok.1 h
  rfl

variable {sections : List Section} {sources : List Source}

theorem keys_records
    (h : List.Forall₂ (fun s source => s.read.result = .ok source) sections sources) :
    Entries.keys (Source.records sources) = sections.map (·.header.name) := by
  induction h with
  | nil => rfl
  | cons hread _ ih => exact congrArg₂ _ (name_of_read hread) ih

/-- The source of a name is blank where the section of the name leaves it blank. -/
theorem find?_endsBlank (name : Text)
    (h : List.Forall₂ (fun s source => s.read.result = .ok source) sections sources) :
    (sections.find? (·.header.name = name)).all (!·.endsBlank) =
      (sources.find? (·.name = name)).all (!·.isBlankAlias) := by
  induction h with
  | nil => rfl
  | @cons s source _ _ hread _ ih =>
    have hname := name_of_read hread
    by_cases h : s.header.name = name
    · have hblank : s.endsBlank = source.isBlankAlias := by
        rw [endsBlank, hread]
        rfl
      simp [h, hname, hblank]
    · simpa [h, hname] using ih

end Section

namespace Source

variable {policy : DuplicatePolicy} {t : Text}

/-- Each section gives a source, which replaces the one with its name. -/
theorem collect_ok {sections : List Section} {found out : List Source}
    (h : (collect policy found sections).result = .ok out) :
    ∃ sources, List.Forall₂ (fun s source => s.read.result = .ok source) sections sources ∧
      records out = Entries.insertAll (records found) (records sources) := by
  induction sections generalizing found with
  | nil =>
    cases h
    exact ⟨[], .nil, rfl⟩
  | cons s sections ih =>
    obtain ⟨_, _, h⟩ := Logged.bind_ok.1 h
    obtain ⟨source, hread, h⟩ := Logged.bind_ok.1 h
    obtain ⟨sources, hsources, hout⟩ := ih h
    refine ⟨source :: sources, .cons hread hsources, ?_⟩
    rw [hout, ← insert_records]
    rfl

theorem scan_ok {kept : List Source} :
    (scan policy t).result = .ok kept ↔
      ∃ out, (collect policy [] (Section.ofSegments (Segment.cut t))).result = .ok out ∧
        kept = out.filter (!·.isBlankAlias) ∧ kept ≠ [] := by
  unfold scan
  simp only [Logged.bind_ok]
  refine exists_congr fun out => and_congr_right fun _ => ?_
  constructor
  · rintro ⟨_, ⟨⟩, h⟩
    split at h
    · cases h
    · rename_i hne
      cases h
      exact ⟨rfl, hne⟩
  · rintro ⟨rfl, hne⟩
    refine ⟨_, rfl, ?_⟩
    rw [if_neg hne]
    rfl

/-- The names found are those of the headers, in the order of their first ones, without those that
the last header leaves without an expression. -/
theorem keys_records_scan {kept : List Source} (h : (scan policy t).result = .ok kept) :
    Entries.keys (records kept) =
      ((Section.ofSegments (Segment.cut t)).map (·.header.name)).eraseDups.filter fun name =>
        (Section.last? name (Section.ofSegments (Segment.cut t))).all (!·.endsBlank) := by
  obtain ⟨out, hout, rfl, -⟩ := scan_ok.1 h
  obtain ⟨sources, hsources, hrecords⟩ := collect_ok hout
  have hkeys : Entries.keys (records out) =
      ((Section.ofSegments (Segment.cut t)).map (·.header.name)).eraseDups := by
    rw [← Section.keys_records hsources, ← Entries.keys_ofList, hrecords]
    rfl
  have hfilter : records (out.filter (!·.isBlankAlias)) =
      (records out).filter fun entry => !entry.2.isBlankAlias := by
    simp only [records, List.filter_map, Function.comp_def, isBlankAlias_record]
  have hnodup : (Entries.keys (records out)).Nodup := by
    rw [hrecords]
    exact Entries.nodup_keys_ofList _
  rw [hfilter, Entries.keys_filter hnodup (!·.isBlankAlias), hkeys]
  refine List.filter_congr fun name _ => ?_
  have hget : Entries.get? name (records out) =
      (sources.reverse.find? (·.name = name)).map record := by
    rw [hrecords, ← get?_records]
    exact (Entries.get?_ofList _).trans (congrArg _ List.map_reverse.symm)
  rw [hget, Section.last?, Section.find?_endsBlank name (List.forall₂_reverse_iff.2 hsources),
    Option.all_map]
  simp only [isBlankAlias_record]

/-- Throughout a walk, the declaration that it is in has a record. At its end the records are those
of the sources: each is sound and stands under its name, and none is a blank alias. The names are
those of the headers, in the order of their first ones, without those of which the last header is
left without an expression. -/
theorem scan_walk (policy : DuplicatePolicy) (t : Text) :
    (∀ segments w, segments <+: Segment.cut t →
      (Walk.run policy Walk.start segments).result = .ok w →
        ∀ name ∈ w.place.owner?, name ∈ Entries.keys w.found) ∧
    Walk.scan policy t = records <$> scan policy t ∧
    ∀ found, (Walk.scan policy t).result = .ok found →
      (∀ name r, (name, r) ∈ found →
        r.Sound name ∧ ∀ expr ∈ r.target?, Text.blank expr = false) ∧
      Entries.keys found =
        ((Section.ofSegments (Segment.cut t)).map (·.header.name)).eraseDups.filter fun name =>
          (Section.last? name (Section.ofSegments (Segment.cut t))).all (!·.endsBlank) := by
  refine ⟨?_, Walk.scan_eq policy t, fun found hfound => ⟨?_, ?_⟩⟩
  · intro segments w _ hw name howner
    rw [Walk.after_of_run hw] at howner ⊢
    exact (Walk.Sound.start.after segments).mem_keys howner
  · obtain ⟨w, hw, hfound⟩ := Logged.bind_ok.1 hfound
    obtain ⟨kept, ⟨⟩, hkept⟩ := Logged.bind_ok.1 hfound
    have hrecords := (Walk.Sound.start.after (Segment.cut t)).records
    rw [← Walk.after_of_run hw] at hrecords
    intro name r hr
    split at hkept
    · cases hkept
    · cases hkept
      obtain ⟨hr, hblank⟩ := List.mem_filter.1 hr
      refine ⟨hrecords _ hr, fun expr hexpr => ?_⟩
      simpa [Record.isBlankAlias, Option.mem_def.1 hexpr] using hblank
  · rw [Walk.scan_eq, Logged.map_eq] at hfound
    cases hscan : (scan policy t).result with
    | error e =>
      rw [hscan] at hfound
      cases hfound
    | ok kept =>
      rw [hscan] at hfound
      cases hfound
      exact keys_records_scan hscan

end Source

end InterfaceForms

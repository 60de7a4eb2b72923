import InterfaceForms.Proofs.PrintedHeaders
import InterfaceForms.Proofs.PrintedMembers

/-!
# Sources of printed declarations

In the segments of printed declarations the headers are those of the declarations: no line of a
member is one, whatever the name of the member. So each declaration becomes a section, and a
section gives the lines of the members or the target of the alias.

* `Declaration.ofText_print`: the declarations in the text of printed declarations.
-/

namespace InterfaceForms

/-! ## The segments of a declaration -/

namespace FieldDecl

/-- The line of a member, as it stands in a block. -/
def line (l : Layout) (f : FieldDecl) : MemberLine := ⟨f.lineText l, f.doc⟩

namespace WellFormed

variable {f : FieldDecl}

theorem ofLine?_lineText (h : f.WellFormed) (l : Layout) :
    Header.ofLine? (f.lineText l) = none := by
  obtain ⟨c, u, hafter, hc⟩ := f.exists_afterName
  rw [lineText, code_eq, hafter, List.append_assoc, List.cons_append]
  rcases hc with rfl | rfl
  · exact Header.ofLine?_of_sign h.name.chars (by decide) (by decide)
  · exact Header.ofLine?_of_sign h.name.chars (by decide) (by decide)

/-- A member neither continues the one before it nor opens or closes braces. -/
theorem beforeBrace?_lineText (h : f.WellFormed) (l : Layout) :
    Section.beforeBrace? (f.lineText l) = none := by
  have hopen : Text.endsWith '\x7b' (f.lineText l) = false := by
    have hcode := h.ends.endsWith (c := '\x7b') (by decide)
    have hnote := h.note
    unfold lineText tail
    split
    · rename_i comment hcomment
      rw [hcomment] at hnote
      rw [Cutter.trailer, ← List.append_assoc, ← List.append_assoc,
        Text.endsWith_append hnote.1.ne_nil]
      exact hnote.2.2
    · simpa only [List.append_nil] using hcode
  simp only [Section.beforeBrace?, hopen, Bool.false_eq_true, if_false]

theorem head_lineText (h : f.WellFormed) (l : Layout) :
    ∃ c u, f.lineText l = c :: u ∧ Header.startsName c = true := by
  obtain ⟨c, u, hcode, hc⟩ := h.ends.first
  exact ⟨c, u ++ f.tail l, by rw [lineText, hcode, List.cons_append], hc⟩

theorem startsMember_lineText (h : f.WellFormed) (l : Layout) :
    MemberLine.startsMember (f.lineText l) = true := by
  obtain ⟨c, u, htext, hc⟩ := h.head_lineText l
  rw [htext]
  simp only [Header.startsName, Bool.or_eq_true, decide_eq_true_eq] at hc
  rcases hc with (hc | rfl) | rfl
  · simp [MemberLine.startsMember, Text.isAlphabetic_of_isAlpha hc]
  · simp [MemberLine.startsMember]
  · simp [MemberLine.startsMember]

/-- A line of a member is read as such. -/
theorem readBlock_cons (h : f.WellFormed) (l : Layout) {owner : Text} {s : Segment}
    (hs : s.content = (f.lineText l, f.doc)) (lines : List MemberLine) (rest : List Segment) :
    Section.readBlock owner 0 lines (s :: rest) =
      Section.readBlock owner 0 (f.line l :: lines) rest := by
  obtain ⟨text, number, doc⟩ := s
  simp only [Segment.content, Prod.mk.injEq] at hs
  obtain ⟨rfl, rfl⟩ := hs
  obtain ⟨c, u, htext, hc⟩ := h.head_lineText l
  have hne : f.lineText l ≠ ['\x7d'] := by
    rw [htext]
    rintro ⟨⟩
    exact absurd hc (by decide)
  have hbar : Text.startsWith '|' (f.lineText l) = false := by
    have hbar : c ≠ '|' := by
      rintro rfl
      exact absurd hc (by decide)
    rw [htext]
    simpa [Text.startsWith] using hbar
  rw [Section.readBlock]
  simp [hne, hbar, h.startsMember_lineText l, h.beforeBrace?_lineText l, line]

end WellFormed

end FieldDecl

/-! ## The sections of a text -/

namespace Decl

/-- The header of a printed declaration. -/
def header (d : Decl) : Header :=
  match d.body with
  | .block _ => ⟨d.name, ['\x7b']⟩
  | .alias target => ⟨d.name, "= ".toList ++ target.print⟩

/-- The source of a printed declaration. -/
def source (l : Layout) (d : Decl) : SourceBody :=
  match d.body with
  | .block fields => .block (fields.map (·.line l))
  | .alias target => .alias target.print

theorem header_name (d : Decl) : d.header.name = d.name := by
  unfold header
  split <;> rfl

namespace WellFormed

variable {d : Decl}

theorem ofLine?_headerText (h : d.WellFormed) : Header.ofLine? d.headerText = some d.header := by
  obtain ⟨name, fields | target⟩ := d
  · have hrest : Text.Solid ['\x7b'] := .singleton (by decide)
    have hline := Header.ofLine?_of_word (.inl rfl) h.name.name hrest (by decide)
    simpa [headerText, header] using hline
  · have htarget : target.WellFormed := h.body
    have hequals : Text.Solid ['='] := .singleton (by decide)
    have hrest : Text.Solid ("= ".toList ++ target.print) :=
      hequals.append (solid_of_ends htarget.printed.ends) [' ']
    have hbreak : '\n' ∉ "= ".toList ++ target.print := by
      simp [htarget.printed.code.newline_not_mem]
    have hline := Header.ofLine?_of_word (.inr rfl) h.name.name hrest hbreak
    simpa [headerText, header] using hline

theorem ofLine?_body (h : d.WellFormed) (l : Layout) :
    ∀ c ∈ d.bodySegments l, Header.ofLine? c.1 = none := by
  obtain ⟨name, fields | target⟩ := d
  · have hfields : ∀ f ∈ fields, f.WellFormed := h.body
    intro c hc
    rcases List.mem_append.1 hc with hc | hc
    · obtain ⟨f, hf, rfl⟩ := List.mem_map.1 hc
      exact (hfields f hf).ofLine?_lineText l
    · obtain rfl := List.mem_singleton.1 hc
      exact Header.ofLine?_of_sign (n := []) rfl (by decide) (by decide)
  · nofun

end WellFormed

end Decl

namespace Section

/-- What is said in a section. -/
def content (s : Section) : Header × List (Text × Option Text) :=
  (s.header, s.body.map Segment.content)

theorem ofSegments_eq (s : Segment) (rest : List Segment) :
    ofSegments (s :: rest) = match Header.ofLine? s.text with
      | none => ofSegments rest
      | some header =>
        ⟨header, s.line, rest.takeWhile fun s => (Header.ofLine? s.text).isNone⟩ ::
          ofSegments rest := by
  rfl

theorem ofSegments_append {body : List Segment} (h : ∀ s ∈ body, Header.ofLine? s.text = none)
    (rest : List Segment) : ofSegments (body ++ rest) = ofSegments rest := by
  induction body with
  | nil => rfl
  | cons s body ih =>
    rw [List.cons_append, ofSegments_eq, h s List.mem_cons_self]
    exact ih fun x hx => h x (List.mem_cons_of_mem s hx)

/-- The body of a section ends before the next header. -/
theorem ofSegments_cons {s : Segment} {header : Header} {body rest : List Segment}
    (hs : Header.ofLine? s.text = some header) (hbody : ∀ s ∈ body, Header.ofLine? s.text = none)
    (hrest : ∀ s ∈ rest.head?, Header.ofLine? s.text ≠ none) :
    ofSegments (s :: (body ++ rest)) = ⟨header, s.line, body⟩ :: ofSegments rest := by
  have htake : (body ++ rest).takeWhile (fun s => (Header.ofLine? s.text).isNone) = body := by
    rw [List.takeWhile_append_of_pos fun s hs => by rw [hbody s hs]; rfl]
    cases rest with
    | nil => simp
    | cons r rest =>
      have hr := hrest r rfl
      simp [hr]
  rw [ofSegments_eq, hs]
  simp only [htake, ofSegments_append hbody]

/-- The last section goes on to the end. -/
theorem ofSegments_last {s : Segment} {header : Header} {body : List Segment}
    (hs : Header.ofLine? s.text = some header)
    (hbody : ∀ s ∈ body, Header.ofLine? s.text = none) :
    ofSegments (s :: body) = [⟨header, s.line, body⟩] := by
  have hcons : ofSegments (s :: (body ++ [])) = ⟨header, s.line, body⟩ :: ofSegments [] :=
    ofSegments_cons hs hbody nofun
  rwa [List.append_nil] at hcons

/-- The first segment of a printed declaration is a header. -/
theorem ofLine?_of_content {d : Decl} (hd : d.WellFormed) {s : Segment}
    (hs : s.content = (d.headerText, none)) : Header.ofLine? s.text = some d.header := by
  have htext : s.text = d.headerText := congrArg Prod.fst hs
  rw [htext, hd.ofLine?_headerText]

/-- Each printed declaration makes a section. -/
theorem ofSegments_print {ds : List Decl} (hds : ∀ d ∈ ds, d.WellFormed) (l : Layout)
    {segments : List Segment}
    (h : segments.map Segment.content = ds.flatMap (·.segments l)) :
    (ofSegments segments).map content = ds.map fun d => (d.header, d.bodySegments l) := by
  induction ds generalizing segments with
  | nil =>
    obtain rfl := List.map_eq_nil_iff.1 h
    rfl
  | cons d ds ih =>
    have hd := hds d List.mem_cons_self
    have hds' : ∀ x ∈ ds, x.WellFormed := fun x hx => hds x (List.mem_cons_of_mem d hx)
    rw [List.flatMap_cons, Decl.segments, List.cons_append] at h
    obtain ⟨s, tail, rfl, hs, htail⟩ := List.map_eq_cons_iff.1 h
    obtain ⟨body, rest, rfl, hbody, hrest⟩ := List.map_eq_append_iff.1 htail
    have hnone : ∀ s ∈ body, Header.ofLine? s.text = none := by
      intro s hs
      refine hd.ofLine?_body l s.content ?_
      rw [← hbody]
      exact List.mem_map_of_mem hs
    have hnext : ∀ s ∈ rest.head?, Header.ofLine? s.text ≠ none := by
      intro r hr
      cases ds with
      | nil =>
        obtain rfl := List.map_eq_nil_iff.1 hrest
        cases hr
      | cons e ds =>
        rw [List.flatMap_cons, Decl.segments, List.cons_append] at hrest
        obtain ⟨s', _, rfl, hs', _⟩ := List.map_eq_cons_iff.1 hrest
        obtain rfl := Option.some.inj hr
        rw [ofLine?_of_content (hds' e List.mem_cons_self) hs']
        exact Option.some_ne_none _
    rw [ofSegments_cons (ofLine?_of_content hd hs) hnone hnext, List.map_cons, ih hds' hrest,
      List.map_cons, content, hbody]

/-! ## The source of a section -/

/-- The lines of a block are those of its members. -/
theorem readBlock_print {fields : List FieldDecl} (hf : ∀ f ∈ fields, f.WellFormed) (l : Layout)
    (owner : Text) (lines : List MemberLine) {body : List Segment}
    (h : body.map Segment.content =
      fields.map (fun f => (f.lineText l, f.doc)) ++ [(['\x7d'], none)]) :
    readBlock owner 0 lines body = pure (lines.reverse ++ fields.map (·.line l)) := by
  induction fields generalizing lines body with
  | nil =>
    obtain ⟨s, rest, rfl, hs, _⟩ := List.map_eq_cons_iff.1 h
    have hclose : s.text = ['\x7d'] := congrArg Prod.fst hs
    rw [readBlock, if_pos hclose, List.map_nil, List.append_nil]
  | cons f fields ih =>
    rw [List.map_cons, List.cons_append] at h
    obtain ⟨s, rest, rfl, hs, hrest⟩ := List.map_eq_cons_iff.1 h
    rw [(hf f List.mem_cons_self).readBlock_cons l hs lines rest,
      ih (fun g hg => hf g (List.mem_cons_of_mem f hg)) _ hrest]
    simp

theorem read_print {d : Decl} (hd : d.WellFormed) (l : Layout) {s : Section}
    (h : s.content = (d.header, d.bodySegments l)) :
    s.read = pure ⟨d.name, s.line, d.source l⟩ := by
  obtain ⟨header, line, body⟩ := s
  simp only [content, Prod.mk.injEq] at h
  obtain ⟨rfl, hbody⟩ := h
  obtain ⟨name, fields | target⟩ := d
  · have hfields : ∀ f ∈ fields, f.WellFormed := hd.body
    have hlines := readBlock_print hfields l name [] hbody
    have hblock : (Header.mk name ['\x7b']).aliasExpr? = none := rfl
    simp only [read, Decl.header, Decl.source, hblock, hlines]
    rfl
  · have htarget : target.WellFormed := hd.body
    have hends := htarget.printed.ends
    obtain rfl := List.map_eq_nil_iff.1 hbody
    have hopen : Text.endsWith '\x7b' ("= ".toList ++ target.print) = false := by
      rw [Text.endsWith_append hends.ne_nil]
      exact hends.endsWith (by decide)
    have halias : (Header.mk name ("= ".toList ++ target.print)).aliasExpr? =
        some target.print := by
      rw [Header.aliasExpr?, if_neg (by simpa using hopen)]
      exact congrArg some (solid_of_ends hends).trim_space
    simp only [read, Decl.header, Decl.source, halias]
    rfl

end Section

/-! ## The sources of a text -/

namespace Source

/-- What is said in a source. -/
def content (s : Source) : Text × SourceBody := (s.name, s.body)

theorem put_of_new {source : Source} {found : List Source}
    (h : ∀ s ∈ found, s.name ≠ source.name) : put source found = found ++ [source] := by
  induction found with
  | nil => rfl
  | cons s found ih =>
    rw [put, if_neg (h s List.mem_cons_self), ih fun x hx => h x (List.mem_cons_of_mem s hx)]
    rfl

theorem checkDuplicate_of_new {policy : DuplicatePolicy} {found : List Source} {s : Section}
    (h : ∀ source ∈ found, source.name ≠ s.header.name) :
    checkDuplicate policy found s = pure () := by
  have hnone : found.find? (·.name = s.header.name) = none := by
    simpa [List.find?_eq_none] using h
  rw [checkDuplicate, hnone]

/-- Sections with different names give a source each, whatever is done about equal ones. -/
theorem collect_print {ds : List Decl} (hds : ∀ d ∈ ds, d.WellFormed) (l : Layout)
    (policy : DuplicatePolicy) (found : List Source) {sections : List Section}
    (hnames : (ds.map (·.name)).Nodup)
    (hnew : ∀ s ∈ found, ∀ d ∈ ds, s.name ≠ d.name)
    (h : sections.map Section.content = ds.map fun d => (d.header, d.bodySegments l)) :
    ∃ sources, collect policy found sections = pure (found ++ sources) ∧
      sources.map content = ds.map fun d => (d.name, d.source l) := by
  induction ds generalizing found sections with
  | nil =>
    obtain rfl := List.map_eq_nil_iff.1 h
    exact ⟨[], by rw [List.append_nil]; rfl, rfl⟩
  | cons d ds ih =>
    rw [List.map_cons] at h
    obtain ⟨s, rest, rfl, hs, hrest⟩ := List.map_eq_cons_iff.1 h
    rw [List.map_cons, List.nodup_cons] at hnames
    have hname : s.header.name = d.name := by
      have hheader : s.header = d.header := congrArg Prod.fst hs
      rw [hheader, d.header_name]
    have hread := Section.read_print (hds d List.mem_cons_self) l hs
    have hfound : ∀ source ∈ found, source.name ≠ d.name := fun source hsource =>
      hnew source hsource d List.mem_cons_self
    have hnew' : ∀ source ∈ found ++ [⟨d.name, s.line, d.source l⟩], ∀ e ∈ ds,
        source.name ≠ e.name := by
      intro source hsource e he
      rcases List.mem_append.1 hsource with hsource | hsource
      · exact hnew source hsource e (List.mem_cons_of_mem d he)
      · obtain rfl := List.mem_singleton.1 hsource
        rintro heq
        exact hnames.1 (List.mem_map.2 ⟨e, he, heq.symm⟩)
    obtain ⟨sources, hcollect, hcontent⟩ :=
      ih (fun x hx => hds x (List.mem_cons_of_mem d hx)) _ hnames.2 hnew' hrest
    refine ⟨⟨d.name, s.line, d.source l⟩ :: sources, ?_, ?_⟩
    · have hcheck : checkDuplicate policy found s = pure () :=
        checkDuplicate_of_new (by rwa [hname])
      have hput : put ⟨d.name, s.line, d.source l⟩ found =
          found ++ [⟨d.name, s.line, d.source l⟩] := put_of_new hfound
      rw [collect, hcheck, hread, pure_bind, pure_bind, hput, hcollect]
      simp
    · rw [List.map_cons, hcontent, List.map_cons]
      rfl

theorem isBlankAlias_print {d : Decl} (hd : d.WellFormed) (l : Layout) {source : Source}
    (h : source.content = (d.name, d.source l)) : source.isBlankAlias = false := by
  obtain ⟨name, line, body⟩ := source
  simp only [content, Prod.mk.injEq] at h
  obtain ⟨rfl, rfl⟩ := h
  obtain ⟨name, fields | target⟩ := d
  · rfl
  · have htarget : target.WellFormed := hd.body
    exact (solid_of_ends htarget.printed.ends).not_blank

/-- Every source of a printed declaration is kept. -/
theorem scan_print {ds : List Decl} (hds : ∀ d ∈ ds, d.WellFormed)
    (hnames : (ds.map (·.name)).Nodup) (hne : ds ≠ []) (l : Layout) (policy : DuplicatePolicy) :
    ∃ sources, scan policy (Decls.print l ds) = pure sources ∧
      sources.map content = ds.map fun d => (d.name, d.source l) := by
  obtain ⟨sources, hcollect, hcontent⟩ := collect_print hds l policy [] hnames nofun
    (Section.ofSegments_print hds l (Segment.cut_print hds l))
  refine ⟨sources, ?_, hcontent⟩
  have hkept : ∀ s ∈ sources, s.isBlankAlias = false := by
    intro s hs
    have hmem : s.content ∈ ds.map fun d => (d.name, d.source l) := by
      rw [← hcontent]
      exact List.mem_map_of_mem hs
    obtain ⟨d, hd, heq⟩ := List.mem_map.1 hmem
    exact isBlankAlias_print (hds d hd) l heq.symm
  have hdrop : dropBlankAliases sources = pure sources := by
    have hnone : sources.filter isBlankAlias = [] := by
      rw [List.filter_eq_nil_iff]
      intro s hs
      simp [hkept s hs]
    have hall : sources.filter (fun s => !s.isBlankAlias) = sources := by
      rw [List.filter_eq_self]
      intro s hs
      simp [hkept s hs]
    rw [dropBlankAliases, hnone, hall]
    rfl
  have hsources : sources ≠ [] := by
    rintro rfl
    exact hne (List.map_eq_nil_iff.1 hcontent.symm)
  rw [scan, hcollect, List.nil_append, pure_bind, hdrop, pure_bind, if_neg hsources]

end Source

/-! ## The declarations of a text -/

/-- What is read from a printed declaration. -/
def Decl.declaration (d : Decl) : Declaration :=
  ⟨d.name, match d.body with
    | .block fields => .block (fields.map (·.member))
    | .alias target => .alias ⟨[], false, target.print, none, target.shape⟩⟩

namespace Declaration

theorem mapM_member?_print {fields : List FieldDecl} (hf : ∀ f ∈ fields, f.WellFormed)
    (l : Layout) :
    (fields.map (·.line l)).mapM MemberLine.member? = .ok (fields.map fun f => some f.member) := by
  induction fields with
  | nil => rfl
  | cons f fields ih =>
    have hhead : MemberLine.member? (f.line l) = .ok (some f.member) :=
      FieldDecl.member?_lineText (hf f List.mem_cons_self) l
    rw [List.map_cons, List.mapM_cons, hhead, ih fun g hg => hf g (List.mem_cons_of_mem f hg)]
    rfl

theorem ofSource_print {d : Decl} (hd : d.WellFormed) (l : Layout) {source : Source}
    (h : source.content = (d.name, d.source l)) : ofSource source = .ok d.declaration := by
  obtain ⟨name, line, body⟩ := source
  simp only [Source.content, Prod.mk.injEq] at h
  obtain ⟨rfl, rfl⟩ := h
  obtain ⟨name, fields | target⟩ := d
  · have hfields : ∀ f ∈ fields, f.WellFormed := hd.body
    have hmembers := mapM_member?_print hfields l
    have hsome : (fields.map fun f => some f.member).filterMap id = fields.map (·.member) := by
      simp [List.filterMap_map]
    simp only [ofSource, Decl.source, hmembers, Decl.declaration, ← hsome]
    rfl
  · have htarget : target.WellFormed := hd.body
    have hmember : Member.ofAlias target.print =
        .ok ⟨[], false, target.print, none, target.shape⟩ := by
      rw [Member.ofAlias, Shape.ofExpr_print htarget, (solid_of_ends htarget.printed.ends).trim]
      rfl
    simp only [ofSource, Decl.source, hmember]
    rfl

/-- The text of printed declarations is read as the declarations, without a warning. -/
theorem ofText_print {ds : List Decl} (hds : ∀ d ∈ ds, d.WellFormed)
    (hnames : (ds.map (·.name)).Nodup) (hne : ds ≠ []) (l : Layout) (options : Options) :
    ofText options (Decls.print l ds) = pure (ds.map (·.declaration)) := by
  obtain ⟨sources, hscan, hcontent⟩ := Source.scan_print hds hnames hne l options.duplicates
  have hall : ∀ {ds : List Decl} {sources : List Source}, (∀ d ∈ ds, d.WellFormed) →
      sources.map Source.content = (ds.map fun d => (d.name, d.source l)) →
      sources.mapM ofSource = .ok (ds.map (·.declaration)) := by
    intro ds
    induction ds with
    | nil =>
      intro sources _ h
      obtain rfl := List.map_eq_nil_iff.1 h
      rfl
    | cons d ds ih =>
      intro sources hds h
      rw [List.map_cons] at h
      obtain ⟨s, rest, rfl, hs, hrest⟩ := List.map_eq_cons_iff.1 h
      rw [List.mapM_cons, ofSource_print (hds d List.mem_cons_self) l hs,
        ih (fun x hx => hds x (List.mem_cons_of_mem d hx)) hrest]
      rfl
  rw [ofText, hscan, pure_bind, hall hds hcontent]
  rfl

end Declaration

end InterfaceForms

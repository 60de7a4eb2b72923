import InterfaceForms.Proofs.TextOrder
import InterfaceForms.Proofs.UnionMembers

/-!
# Parts of sections

Two texts that differ only in some lines of one section: what is read before them is the same, and
where the section is read to sources that declare the same, the texts declare the same.

* `Walk.reads_after`: the section that a walk is in is read on from where the walk is.
* `Section.related_append`: the sections of texts that differ in some lines.
* `Declaration.forgetTypes_ofText`: the declarations of texts with such sections.
-/

namespace InterfaceForms

/-! ## Sections that are read on -/

/-- The segments end in a section of `owner`, and from there on it is read as by `f`. -/
def Section.Continues (segments : List Segment) (owner : Text)
    (f : List Segment → Logged SourceBody) : Prop :=
  ∃ earlier s header body, segments = earlier ++ s :: body ∧
    Header.ofLine? s.text = some header ∧ header.name = owner ∧
    (∀ x ∈ body, Header.ofLine? x.text = none) ∧
    ∀ rest, (readBody ⟨header, s.line, body ++ rest⟩).result = (f rest).result

namespace Section.Continues

variable {segments : List Segment} {s : Segment} {owner : Text}
  {f g : List Segment → Logged SourceBody}

theorem header {header : Header} (hs : Header.ofLine? s.text = some header)
    (hread : ∀ rest, (readBody ⟨header, s.line, rest⟩).result = (f rest).result) :
    Continues (segments ++ [s]) header.name f :=
  ⟨segments, s, header, [], rfl, hs, rfl, nofun, hread⟩

theorem line (h : Continues segments owner f) (hs : Header.ofLine? s.text = none)
    (hread : ∀ rest, (f (s :: rest)).result = (g rest).result) :
    Continues (segments ++ [s]) owner g := by
  obtain ⟨earlier, first, header, body, rfl, hfirst, rfl, hbody, hall⟩ := h
  refine ⟨earlier, first, header, body ++ [s], by simp, hfirst, rfl, ?_, fun rest => ?_⟩
  · intro x hx
    rcases List.mem_append.1 hx with hx | hx
    · exact hbody x hx
    · rw [List.mem_singleton.1 hx]
      exact hs
  · rw [List.append_assoc, List.singleton_append, hall]
    exact hread rest

end Section.Continues

/-- What is read behind a member does not depend on the warning about it. -/
theorem Section.result_readBlock_member {s : Segment} (owner : Text) (lines : List MemberLine)
    (rest : List Segment) (h : s.text ≠ ['\x7d'])
    (hmember : MemberLine.startsMember s.text = true) :
    (readBlock owner 0 lines (s :: rest)).result =
      (readBlock owner (if Text.endsWith '\x7b' s.text then 1 else 0)
        (MemberLine.ofSegment s :: lines) rest).result := by
  rw [readBlock_member owner lines rest h hmember, Logged.bind_result]
  rfl

namespace Walk

theorem after_append (w : Walk) (segments segments' : List Segment) :
    w.after (segments ++ segments') = (w.after segments).after segments' :=
  List.foldl_append

/-- What the section that the walk is in is read on with. -/
def Reads (w : Walk) (segments : List Segment) : Prop :=
  match w.place with
  | .outside => True
  | .block owner nested => ∃ lines, Section.Continues segments owner fun rest =>
      .block <$> Section.readBlock owner nested lines rest
  | .alias owner => ∃ r expr, Entries.get? owner w.found = some r ∧ r.target? = some expr ∧
      Section.Continues segments owner (Section.readAlias owner expr)

variable {found : Entries Record} {owner : Text} {s : Segment} {segments : List Segment}

theorem reads_blockLine {nested : Nat} (h : Reads ⟨found, .block owner nested⟩ segments)
    (hs : Header.ofLine? s.text = none) :
    (blockLine found owner nested s).Reads (segments ++ [s]) := by
  obtain ⟨lines, h⟩ := h
  have hstep : ∀ {found' : Entries Record} (nested' : Nat) (lines' : List MemberLine),
      (∀ rest, (Section.readBlock owner nested lines (s :: rest)).result =
        (Section.readBlock owner nested' lines' rest).result) →
      Reads ⟨found', .block owner nested'⟩ (segments ++ [s]) := by
    intro found' nested' lines' hread
    refine ⟨lines', h.line hs fun rest => ?_⟩
    rw [Logged.map_eq, Logged.map_eq, hread]
  unfold blockLine
  split
  · rename_i hbrace
    cases nested with
    | zero => trivial
    | succ nested =>
      exact hstep nested lines fun rest => by rw [Section.readBlock_brace owner lines rest hbrace]
  rename_i hbrace
  cases nested with
  | succ nested =>
    rw [if_pos (Nat.succ_pos nested)]
    exact hstep _ lines fun rest => by rw [Section.readBlock_inner owner lines rest hbrace]
  | zero =>
    rw [if_neg (Nat.lt_irrefl 0)]
    cases hmember : MemberLine.startsMember s.text with
    | false =>
      have hother := fun rest => Section.readBlock_other owner lines rest hbrace hmember
      rw [if_neg Bool.false_ne_true]
      split
      · exact hstep 0 _ fun rest => by rw [hother]
      · exact hstep 0 _ fun rest => by rw [hother]
    | true =>
      have hbar := MemberLine.not_bar_of_startsMember hmember
      have hread := fun rest => Section.result_readBlock_member owner lines rest hbrace hmember
      rw [hbar, if_neg Bool.false_ne_true, if_pos rfl]
      cases hopen : Text.endsWith '\x7b' s.text with
      | true =>
        rw [hopen, if_pos rfl] at hread
        simp only [Section.beforeBrace?, hopen, if_true]
        exact hstep 1 _ hread
      | false =>
        rw [hopen, if_neg Bool.false_ne_true] at hread
        simp only [Section.beforeBrace?, hopen, Bool.false_eq_true, if_false]
        exact hstep 0 _ hread

theorem reads_aliasLine (h : Reads ⟨found, .alias owner⟩ segments)
    (hs : Header.ofLine? s.text = none) :
    (aliasLine found owner s).Reads (segments ++ [s]) := by
  obtain ⟨r, expr, hr, hexpr, h⟩ := h
  have hget : ∀ target?,
      Entries.get? owner (Entries.update owner (Record.setTarget target?) found) =
        some (r.setTarget target?) := fun target? => by
    rw [Entries.get?_update_self, hr]
    rfl
  have htarget : ((Entries.get? owner found).bind (·.target?)).getD [] = expr := by
    rw [hr, Option.bind_some, hexpr, Option.getD_some]
  unfold aliasLine
  rw [htarget]
  dsimp only
  split
  · rename_i hbrace
    exact ⟨[], h.line hs fun rest => by rw [Section.readAlias, if_pos hbrace]⟩
  rename_i hbrace
  split
  · rename_i hmore
    exact ⟨_, _, hget _, rfl, h.line hs fun rest => by
      rw [Section.readAlias, if_neg hbrace, if_pos hmore]⟩
  · trivial

/-- A step reads on with what it has read. -/
theorem Reads.next {w : Walk} (h : w.Reads segments) (s : Segment) :
    (w.next s).Reads (segments ++ [s]) := by
  cases hs : Header.ofLine? s.text with
  | some header =>
    rw [next_of_header hs]
    unfold openSection Reads
    cases hexpr : header.aliasExpr? with
    | none => exact ⟨[], .header hs fun rest => by simp only [Section.readBody, hexpr]⟩
    | some expr =>
      exact ⟨_, expr, Entries.get?_insert_self, hexpr, .header hs fun rest => by
        simp only [Section.readBody, hexpr]⟩
  | none =>
    rw [next_of_line hs]
    obtain ⟨found, place⟩ := w
    cases place with
    | outside => trivial
    | block owner nested => exact reads_blockLine h hs
    | «alias» owner => exact reads_aliasLine h hs

/-- So the section that a walk is in is read on from where it is. -/
theorem reads_after (segments : List Segment) : (start.after segments).Reads segments := by
  induction segments using List.reverseRecOn with
  | nil => trivial
  | append_singleton segments s ih =>
    rw [after_append]
    exact ih.next s

theorem exists_continues {segments : List Segment} {owner : Text} {nested : Nat}
    (hplace : (start.after segments).place = .block owner nested) :
    ∃ lines, Section.Continues segments owner fun rest =>
      .block <$> Section.readBlock owner nested lines rest := by
  have hreads := reads_after segments
  unfold Reads at hreads
  rwa [hplace] at hreads

end Walk

/-! ## Sources that declare the same -/

/-- The member without the text of its type; the shape stays. -/
def Member.forgetType (m : Member) : Member := { m with rawType := [] }

def DeclarationBody.forgetTypes : DeclarationBody → DeclarationBody
  | .block members => .block (members.map Member.forgetType)
  | .alias target => .alias target.forgetType

/-- The declaration without the texts of its types. -/
def Declaration.forgetTypes (d : Declaration) : Declaration := { d with body := d.body.forgetTypes }

/-- The sources declare the same, but for the texts of types. -/
structure Source.Alike (a b : Source) : Prop where
  name : a.name = b.name
  blank : a.isBlankAlias = b.isBlankAlias
  declares : Logged.Agree (fun d d' => d.forgetTypes = d'.forgetTypes) (Declaration.ofSource a)
    (Declaration.ofSource b)

/-- The lines declare the same member, or both none, but for the text of its type. -/
def MemberLine.Alike (x y : MemberLine) : Prop :=
  Logged.Agree (fun m m' : Option Member => m.map Member.forgetType = m'.map Member.forgetType)
    x.member? y.member?

theorem Logged.Agree.refl {α : Type} {r : α → α → Prop} (hr : ∀ a, r a a)
    (x : Except ParseError α) : Agree r x x := by
  cases x with
  | error e => exact .error
  | ok a => exact .ok (hr a)

theorem MemberLine.alike_refl (x : MemberLine) : x.Alike x := .refl (by intro m; rfl) _

namespace Source

theorem alike_of_content {a b : Source} (h : a.content = b.content) : a.Alike b := by
  obtain ⟨name, line, body⟩ := a
  obtain ⟨name', line', body'⟩ := b
  obtain ⟨rfl, rfl⟩ := Prod.mk.inj h
  exact ⟨rfl, rfl, .refl (by intro d; rfl) _⟩

theorem map_forgetType_filterMap {ms ms' : List (Option Member)}
    (h : ms.map (Option.map Member.forgetType) = ms'.map (Option.map Member.forgetType)) :
    (ms.filterMap id).map Member.forgetType = (ms'.filterMap id).map Member.forgetType := by
  have hall : ∀ l : List (Option Member), (l.filterMap id).map Member.forgetType =
      (l.map (Option.map Member.forgetType)).filterMap id := by
    intro l
    rw [List.map_filterMap, List.filterMap_map]
    rfl
  rw [hall, hall, h]

/-- Blocks that differ in one line from which the same member is read. -/
theorem alike_block {name : Text} {line line' : Nat} {x y : MemberLine} (h : x.Alike y)
    (lines lines' : List MemberLine) :
    Alike ⟨name, line, .block (lines ++ x :: lines')⟩
      ⟨name, line', .block (lines ++ y :: lines')⟩ where
  name := rfl
  blank := rfl
  declares := by
    have hlines : ∀ l : List MemberLine, List.Forall₂ MemberLine.Alike l l :=
      fun l => List.forall₂_same.2 fun z _ => z.alike_refl
    have hall := Logged.Agree.mapM (List.rel_append (hlines lines) (.cons h (hlines lines')))
      fun _ _ h => h
    simp only [Declaration.ofSource]
    generalize (lines ++ x :: lines').mapM MemberLine.member? = r,
      (lines ++ y :: lines').mapM MemberLine.member? = r' at hall
    cases hall with
    | error => exact .error
    | ok hmembers =>
      have hmap := map_forgetType_filterMap (forall₂_eq_on.1 hmembers)
      exact .ok (congrArg (fun ms => (⟨name, .block ms⟩ : Declaration)) hmap)

/-- Aliases of which the same target is read. -/
theorem alike_alias {name expr expr' : Text} {line line' : Nat} {m m' : Member}
    (hexpr : Member.ofAlias expr = .ok m) (hexpr' : Member.ofAlias expr' = .ok m')
    (hm : m.forgetType = m'.forgetType) (hblank : Text.blank expr = false)
    (hblank' : Text.blank expr' = false) :
    Alike ⟨name, line, .alias expr⟩ ⟨name, line', .alias expr'⟩ where
  name := rfl
  blank := hblank.trans hblank'.symm
  declares := by
    simp only [Declaration.ofSource, hexpr, hexpr']
    exact .ok (congrArg (fun m => (⟨name, .alias m⟩ : Declaration)) hm)

end Source

/-- Texts whose sections give sources that declare the same declare the same. -/
theorem Declaration.forgetTypes_ofText {t u : Text}
    (h : List.Forall₂ (Section.Related Source.Alike) (Section.ofSegments (Segment.cut t))
      (Section.ofSegments (Segment.cut u))) (options : Options) :
    (ofText options t).result.map (List.map forgetTypes) =
      (ofText options u).result.map (List.map forgetTypes) := by
  have hscan := Source.scan_related (fun _ _ => Source.Alike.name) (fun _ _ => Source.Alike.blank)
    options.duplicates h
  have htexts : Logged.results.Rel (List.Forall₂ fun d d' => d.forgetTypes = d'.forgetTypes)
      (ofText options t) (ofText options u) := by
    refine Logged.results.bind hscan fun sources sources' hsources => ?_
    exact Logged.Agree.mapM hsources fun _ _ => Source.Alike.declares
  change Logged.Agree _ _ _ at htexts
  generalize (ofText options t).result = x, (ofText options u).result = y at htexts
  cases htexts with
  | error => rfl
  | ok hall => exact congrArg Except.ok (forall₂_eq_on.1 hall)

/-! ## The segments of lines -/

/-- The line is the code with blanks before it. -/
def Text.Indented (line code : Text) : Prop := ∃ b, blank b = true ∧ line = b ++ code

/-- The lines are those of the codes, with blanks before them. -/
structure Text.Written (lines codes : List Text) : Prop where
  indented : List.Forall₂ Indented lines codes
  oneSegment : ∀ code ∈ codes, code.OneSegment
  ne_nil : codes ≠ []

namespace Segment

variable {before : Text} {lines codes : List Text}

theorem cut_indented (h : List.Forall₂ Text.Indented lines codes)
    (hcodes : ∀ code ∈ codes, code.OneSegment) :
    (lines.flatMap cut).map content = codes.map (·, none) ∧ ∀ line ∈ lines, line.Closed := by
  induction h with
  | nil => exact ⟨rfl, nofun⟩
  | @cons line code lines codes hline _ ih =>
    obtain ⟨hcode, hcodes⟩ := List.forall_mem_cons.1 hcodes
    obtain ⟨hcut, hclosed⟩ := ih hcodes
    obtain ⟨b, hb, rfl⟩ := hline
    obtain ⟨hone, hfirst⟩ := hcode b hb
    rw [List.flatMap_cons, List.map_append, hone, hcut]
    exact ⟨rfl, List.forall_mem_cons.2 ⟨hfirst, hclosed⟩⟩

theorem exists_cut_joinWith_cons (hbefore : before.Closed) {texts : List Text} (hne : texts ≠ []) :
    ∃ X, cut (Text.joinWith ['\n'] (before :: texts)) = cut before ++ X ∧
      X.map content = (cut (Text.joinWith ['\n'] texts)).map content := by
  obtain ⟨k, X, -, hcut, hmoved⟩ :=
    exists_cut_append_newline hbefore (Text.joinWith ['\n'] texts)
  refine ⟨X, ?_, content_of_moved hmoved⟩
  rw [Text.joinWith_cons _ _ hne, List.append_assoc]
  exact hcut

variable (hbefore : before.Closed) (h : Text.Written lines codes)
include hbefore h

/-- Behind a closed text each line of code is a segment. -/
theorem exists_cut_lines :
    ∃ X, cut (Text.joinWith ['\n'] (before :: lines)) = cut before ++ X ∧
      X.map content = codes.map (·, none) := by
  have hne : lines ≠ [] := by
    rintro rfl
    exact h.ne_nil (List.forall₂_nil_left_iff.1 h.indented)
  obtain ⟨X, hX, hcontent⟩ := exists_cut_joinWith_cons hbefore hne
  obtain ⟨hcut, hclosed⟩ := cut_indented h.indented h.oneSegment
  exact ⟨X, hX, by rw [hcontent, cut_joinWith hclosed, hcut]⟩

theorem exists_cut_lines_concat (after : Text) :
    ∃ X A, cut (Text.joinWith ['\n'] (before :: (lines ++ [after]))) = cut before ++ (X ++ A) ∧
      X.map content = codes.map (·, none) ∧ A.map content = (cut after).map content := by
  have hne : lines ++ [after] ≠ [] := List.append_ne_nil_of_right_ne_nil _ (by simp)
  obtain ⟨Y, hY, hcontent⟩ := exists_cut_joinWith_cons hbefore hne
  obtain ⟨hcut, hclosed⟩ := cut_indented h.indented h.oneSegment
  rw [cut_joinWith_concat hclosed, List.map_append, hcut] at hcontent
  obtain ⟨X, A, rfl, hX, hA⟩ := List.map_eq_append_iff.1 hcontent
  exact ⟨X, A, hY, hX, hA⟩

end Segment

/-! ## Sections with other lines in them -/

namespace Section

/-- The section that a header begins goes up to the next header. -/
theorem ofSegments_between {s : Segment} {header : Header} {body rest : List Segment}
    (hs : Header.ofLine? s.text = some header) (hbody : ∀ x ∈ body, Header.ofLine? x.text = none)
    (hrest : ∀ x ∈ rest.head?, Header.ofLine? x.text ≠ none) (before : List Segment) :
    ofSegments (before ++ s :: (body ++ rest)) =
      ofSegments before ++ ⟨header, s.line, body⟩ :: ofSegments rest := by
  rw [ofSegments_append_header before, ofSegments_cons hs hbody hrest]
  rintro _ ⟨⟩
  rw [hs]
  exact Option.some_ne_none header

/-- The last section of a text goes to its end. -/
theorem ofSegments_concat {s : Segment} {header : Header} {body : List Segment}
    (hs : Header.ofLine? s.text = some header) (hbody : ∀ x ∈ body, Header.ofLine? x.text = none)
    (before : List Segment) :
    ofSegments (before ++ s :: body) = ofSegments before ++ [⟨header, s.line, body⟩] := by
  have hrest : ∀ x ∈ ([] : List Segment).head?, Header.ofLine? x.text ≠ none := nofun
  have hlast := ofSegments_between hs hbody hrest before
  rwa [List.append_nil] at hlast

/-- Up to the next header segments that say the same go equally far. -/
theorem exists_bodies {A A' : List Segment}
    (hA : A.map Segment.content = A'.map Segment.content) :
    ∃ body rest body' rest', A = body ++ rest ∧ A' = body' ++ rest' ∧
      body.map Segment.content = body'.map Segment.content ∧
      rest.map Segment.content = rest'.map Segment.content ∧
      (∀ x ∈ body, Header.ofLine? x.text = none) ∧ (∀ x ∈ body', Header.ofLine? x.text = none) ∧
      (∀ x ∈ rest.head?, Header.ofLine? x.text ≠ none) ∧
      ∀ x ∈ rest'.head?, Header.ofLine? x.text ≠ none := by
  obtain ⟨body, rest, rfl, hbody, hrest⟩ := exists_body A
  rw [List.map_append] at hA
  obtain ⟨body', rest', rfl, hbodies, hrests⟩ := List.map_eq_append_iff.1 hA.symm
  refine ⟨body, rest, body', rest', rfl, rfl, hbodies.symm, hrests.symm, hbody, ?_, hrest, ?_⟩
  · intro x hx
    obtain ⟨y, hy, hyx⟩ := exists_of_forall₂ (forall₂_eq_on.2 hbodies.symm) x hx
    rw [← show y.text = x.text from congrArg Prod.fst hyx]
    exact hbody y hy
  · intro x hx
    obtain ⟨tail, rfl⟩ := List.head?_eq_some_iff.1 hx
    obtain ⟨y, _, rfl, hyx, -⟩ := List.map_eq_cons_iff.1 hrests.symm
    rw [← show y.text = x.text from congrArg Prod.fst hyx]
    exact hrest y rfl

variable {R : Source → Source → Prop} (hR : ∀ a b : Source, a.content = b.content → R a b)
  {before A A' : List Segment}
include hR

theorem related_of_content {segments segments' : List Segment}
    (h : segments.map Segment.content = segments'.map Segment.content) :
    List.Forall₂ (Related R) (ofSegments segments) (ofSegments segments') :=
  (Source.sections_congr h).imp fun _ _ hs => ⟨hs.name, Logged.Agree.imp hs.read hR⟩

/-- Two sections that begin in the same place, and what follows them, are related where what is
read of the sections is. -/
theorem related_append {s s' : Segment} {header header' : Header} {X X' : List Segment}
    (hs : Header.ofLine? s.text = some header) (hs' : Header.ofLine? s'.text = some header')
    (hX : ∀ x ∈ X, Header.ofLine? x.text = none) (hX' : ∀ x ∈ X', Header.ofLine? x.text = none)
    (hA : A.map Segment.content = A'.map Segment.content) (hname : header.name = header'.name)
    (hread : ∀ body, body <+: A →
      Logged.results.Rel R (read ⟨header, s.line, X ++ body⟩)
        (read ⟨header', s'.line, X' ++ body⟩)) :
    List.Forall₂ (Related R) (ofSegments (before ++ (s :: (X ++ A))))
      (ofSegments (before ++ (s' :: (X' ++ A')))) := by
  obtain ⟨body, rest, body', rest', rfl, rfl, hbodies, hrests, hbody, hbody', hrest, hrest'⟩ :=
    exists_bodies hA
  have hsame : read ⟨header', s'.line, X' ++ body'⟩ = read ⟨header', s'.line, X' ++ body⟩ := by
    have hcontent : content ⟨header', s'.line, X' ++ body'⟩ =
        content ⟨header', s'.line, X' ++ body⟩ := by
      simp only [content, List.map_append, hbodies]
    rw [read_eq, read_eq, readBody_congr hcontent]
  have hlines : ∀ {Y b : List Segment}, (∀ x ∈ Y, Header.ofLine? x.text = none) →
      (∀ x ∈ b, Header.ofLine? x.text = none) → ∀ x ∈ Y ++ b, Header.ofLine? x.text = none :=
    fun hY hb x hx => (List.mem_append.1 hx).elim (hY x) (hb x)
  rw [← List.append_assoc X, ← List.append_assoc X', ofSegments_between hs (hlines hX hbody) hrest,
    ofSegments_between hs' (hlines hX' hbody') hrest']
  refine List.rel_append (related_of_content hR rfl) (.cons ⟨hname, ?_⟩
    (related_of_content hR hrests))
  rw [hsame]
  exact hread body (List.prefix_append body rest)

end Section

end InterfaceForms

import InterfaceForms.Proofs.AddedLines
import InterfaceForms.Proofs.AliasComments
import InterfaceForms.Proofs.HeaderNames
import InterfaceForms.Proofs.SectionParts

/-!
# Unions on one line and on several

A union stands behind the head of a member or of an alias. Written on lines of their own its
alternatives are put together again while the section is read: in a block they go to the member
read last, and after the header of an alias to its expression. What comes of either layout has the
same shape, and the sections around it stay as they are.

* `Section.readBlock_areMember`, `Segment.AreAlias.exists_read`: what is read of the lines.
* `Segment.AreMember.related`, `Segment.AreAlias.related`: the sections of texts with such lines.
* `Declaration.ofText_unionLayouts`: the two layouts declare the same.
-/

namespace InterfaceForms

/-! ## A member on lines of a block -/

/-- The segments are a line and lines of alternatives, without comments. -/
structure Segment.AreLines (segments : List Segment) (first : Text) (bars : List Text) :
    Prop where
  content : segments.map content = (first, none) :: bars.map (·, none)
  bars : ∀ bar ∈ bars, Text.startsWith '|' bar = true

theorem Segment.AreLines.exists_cons {segments : List Segment} {first : Text} {bars : List Text}
    (h : AreLines segments first bars) : ∃ s rest, segments = s :: rest ∧ s.text = first ∧
      s.doc = none ∧ rest.map (·.text) = bars ∧ ∀ x ∈ rest, Text.startsWith '|' x.text = true := by
  obtain ⟨s, rest, rfl, hs, hrest⟩ := List.map_eq_cons_iff.1 h.content
  have htexts : rest.map (·.text) = bars := by
    have hfst := congrArg (List.map Prod.fst) hrest
    simpa [Segment.content, Function.comp_def] using hfst
  refine ⟨s, rest, rfl, congrArg Prod.fst hs, congrArg Prod.snd hs, htexts, fun x hx => ?_⟩
  exact h.bars _ (htexts ▸ List.mem_map_of_mem hx)

/-- The first of the lines starts a member of a block, and the member is read from `line`. -/
def Segment.AreMember (segments : List Segment) (line : MemberLine) : Prop :=
  ∃ first bars, AreLines segments first bars ∧ Header.ofLine? first = none ∧
    MemberLine.startsMember first = true ∧ Text.endsWith '\x7b' first = false ∧
    bars.foldl MemberLine.extend ⟨first, none⟩ = line

namespace Section

variable (owner : Text) (lines : List MemberLine) (rest : List Segment)

/-- Lines of alternatives go to the member read last. -/
theorem readBlock_bars {segments : List Segment}
    (h : ∀ s ∈ segments, Text.startsWith '|' s.text = true) (line : MemberLine) :
    readBlock owner 0 (line :: lines) (segments ++ rest) =
      readBlock owner 0 ((segments.map (·.text)).foldl MemberLine.extend line :: lines) rest := by
  induction segments generalizing line with
  | nil => rfl
  | cons s segments ih =>
    obtain ⟨hs, hrest⟩ := List.forall_mem_cons.1 h
    rw [List.cons_append, readBlock_other _ _ _ (Text.ne_of_bar hs (by decide))
      (MemberLine.startsMember_of_bar hs), if_pos hs, MemberLine.extendLast, ih hrest]
    rfl

theorem readBlock_areMember {segments : List Segment} {line : MemberLine}
    (h : Segment.AreMember segments line) :
    (readBlock owner 0 lines (segments ++ rest)).result =
      (readBlock owner 0 (line :: lines) rest).result := by
  obtain ⟨first, bars, hlines, -, hstarts, hopen, rfl⟩ := h
  obtain ⟨s, segments, rfl, rfl, hdoc, rfl, hbars⟩ := hlines.exists_cons
  have hline : MemberLine.ofSegment s = ⟨s.text, none⟩ := by
    simp [MemberLine.ofSegment, beforeBrace?, hopen, hdoc]
  have hne := Segment.ne_brace_of_startsMember hstarts
  rw [List.cons_append, result_readBlock_member owner lines _ hne hstarts, hopen, hline,
    ← readBlock_bars owner lines rest hbars]
  rfl

end Section

/-! ## A member in a block -/

namespace MemberLine

/-- No line of an alternative comes before the next member and the end of the block. -/
def endsMember : List Text → Bool
  | [] => true
  | t :: rest =>
    t = ['\x7d'] || startsMember t || !Text.startsWith '|' t && endsMember rest

theorem endsMember_of_prefix {body texts : List Text} (hbody : body <+: texts)
    (h : endsMember texts = true) : endsMember body = true := by
  induction body generalizing texts with
  | nil => rfl
  | cons t body ih =>
    obtain ⟨rest, rfl⟩ := hbody
    simp only [List.cons_append, endsMember, Bool.or_eq_true, Bool.and_eq_true] at h ⊢
    exact h.imp id fun hrest => ⟨hrest.1, ih (List.prefix_append body rest) hrest.2⟩

end MemberLine

namespace Section

/-- While a block is read on, only the member read last may still get alternatives; those before
it stay as they are. -/
theorem exists_readBlock_behind (owner : Text) (nested : Nat) (x : MemberLine)
    (xs : List MemberLine) (body : List Segment) :
    ∃ zs, ∀ ys, (readBlock owner nested (x :: xs ++ ys) body).result = .ok (ys.reverse ++ zs) := by
  have hend : ∀ ys, (x :: xs ++ ys).reverse = ys.reverse ++ (x :: xs).reverse :=
    fun ys => List.reverse_append
  induction body generalizing nested x xs with
  | nil => exact ⟨(x :: xs).reverse, fun ys => congrArg Except.ok (hend ys)⟩
  | cons s body ih =>
    have ih' := fun nested x xs => ih nested x xs fun ys => List.reverse_append
    by_cases hbrace : s.text = ['\x7d']
    · cases nested with
      | zero =>
        refine ⟨(x :: xs).reverse, fun ys => ?_⟩
        rw [readBlock_end owner _ body hbrace]
        exact congrArg Except.ok (hend ys)
      | succ nested =>
        obtain ⟨zs, hzs⟩ := ih' nested x xs
        exact ⟨zs, fun ys => by rw [readBlock_brace owner _ body hbrace, hzs]⟩
    cases nested with
    | succ nested =>
      obtain ⟨zs, hzs⟩ := ih' (if Text.endsWith '\x7b' s.text then nested + 2 else nested + 1) x xs
      exact ⟨zs, fun ys => by rw [readBlock_inner owner _ body hbrace, hzs]⟩
    | zero =>
      cases hmember : MemberLine.startsMember s.text with
      | false =>
        by_cases hbar : Text.startsWith '|' s.text = true
        · obtain ⟨zs, hzs⟩ := ih' 0 (x.extend s.text) xs
          refine ⟨zs, fun ys => ?_⟩
          rw [readBlock_other owner _ body hbrace hmember, if_pos hbar]
          exact hzs ys
        · obtain ⟨zs, hzs⟩ := ih' 0 x xs
          refine ⟨zs, fun ys => ?_⟩
          rw [readBlock_other owner _ body hbrace hmember, if_neg hbar, hzs]
      | true =>
        obtain ⟨zs, hzs⟩ := ih' (if Text.endsWith '\x7b' s.text then 1 else 0)
          (MemberLine.ofSegment s) (x :: xs)
        exact ⟨zs, fun ys => by
          rw [result_readBlock_member owner _ body hbrace hmember, ← hzs]
          rfl⟩

/-- The member read last stays as it is where the block goes on without alternatives. -/
theorem exists_readBlock_last (owner : Text) (lines : List MemberLine) {body : List Segment}
    (hbody : MemberLine.endsMember (body.map (·.text)) = true) :
    ∃ zs, ∀ line, (readBlock owner 0 (line :: lines) body).result =
      .ok (lines.reverse ++ line :: zs) := by
  have hend : ∀ line : MemberLine, (line :: lines).reverse = lines.reverse ++ line :: [] :=
    fun line => List.reverse_cons
  induction body with
  | nil => exact ⟨[], fun line => congrArg Except.ok (hend line)⟩
  | cons s body ih =>
    simp only [List.map_cons, MemberLine.endsMember, Bool.or_eq_true, Bool.and_eq_true,
      decide_eq_true_eq, Bool.not_eq_true'] at hbody
    by_cases hbrace : s.text = ['\x7d']
    · refine ⟨[], fun line => ?_⟩
      rw [readBlock_end owner _ body hbrace]
      exact congrArg Except.ok (hend line)
    cases hmember : MemberLine.startsMember s.text with
    | true =>
      obtain ⟨zs, hzs⟩ := exists_readBlock_behind owner
        (if Text.endsWith '\x7b' s.text then 1 else 0) (MemberLine.ofSegment s) [] body
      refine ⟨zs, fun line => ?_⟩
      rw [result_readBlock_member owner _ body hbrace hmember]
      refine (hzs (line :: lines)).trans ?_
      rw [hend, List.append_assoc]
      rfl
    | false =>
      rw [hmember] at hbody
      obtain ⟨hbar, hrest⟩ := hbody.resolve_left (by simp [hbrace])
      obtain ⟨zs, hzs⟩ := ih hrest
      refine ⟨zs, fun line => ?_⟩
      rw [readBlock_other owner _ body hbrace hmember, if_neg (by simp [hbar]), hzs]

end Section

namespace Segment.AreMember

variable {X X' : List Segment} {line line' : MemberLine}

theorem noHeaders (h : AreMember X line) : ∀ x ∈ X, Header.ofLine? x.text = none := by
  obtain ⟨first, bars, hlines, hheader, -, -, -⟩ := h
  obtain ⟨s, rest, rfl, rfl, -, -, hrest⟩ := hlines.exists_cons
  refine List.forall_mem_cons.2 ⟨hheader, fun x hx => ?_⟩
  exact Header.ofLine?_of_alternative (hrest x hx)

/-- In a block, lines from which the same member is read stand for one another. -/
theorem related {before A A' : List Segment} {owner : Text}
    (hplace : (Walk.start.after before).place = .block owner 0) (h : AreMember X line)
    (h' : AreMember X' line') (halike : line.Alike line')
    (hA : A.map Segment.content = A'.map Segment.content)
    (hend : MemberLine.endsMember (A.map (·.text)) = true) :
    List.Forall₂ (Section.Related Source.Alike) (Section.ofSegments (before ++ (X ++ A)))
      (Section.ofSegments (before ++ (X' ++ A'))) := by
  obtain ⟨lines, earlier, s, header, b, rfl, hs, rfl, hb, hread⟩ := Walk.exists_continues hplace
  have hlines : ∀ {Y : List Segment}, (∀ x ∈ Y, Header.ofLine? x.text = none) →
      ∀ x ∈ b ++ Y, Header.ofLine? x.text = none :=
    fun hY x hx => (List.mem_append.1 hx).elim (hb x) (hY x)
  have hassoc : ∀ Y tail : List Segment,
      earlier ++ s :: b ++ (Y ++ tail) = earlier ++ (s :: (b ++ Y ++ tail)) := by simp
  rw [hassoc, hassoc]
  refine Section.related_append (fun _ _ => Source.alike_of_content) hs hs (hlines h.noHeaders)
    (hlines h'.noHeaders) hA rfl fun body hpart => ?_
  obtain ⟨zs, hzs⟩ := Section.exists_readBlock_last header.name lines
    (MemberLine.endsMember_of_prefix (hpart.map (·.text)) hend)
  have hbody : ∀ {Y : List Segment} {line : MemberLine}, AreMember Y line →
      (Section.readBody ⟨header, s.line, b ++ Y ++ body⟩).result =
        .ok (.block (lines.reverse ++ line :: zs)) := by
    intro Y line hY
    have hblock := Section.readBlock_areMember header.name lines body hY
    rw [List.append_assoc, hread]
    dsimp only
    rw [Logged.map_eq, hblock, hzs]
    rfl
  rw [Section.read_eq, Section.read_eq]
  refine Logged.results.bind_pure (r := fun u v =>
    u = .block (lines.reverse ++ line :: zs) ∧
      v = .block (lines.reverse ++ line' :: zs)) ?_ ?_
  · change Logged.Agree _ _ _
    rw [hbody h, hbody h']
    exact .ok ⟨rfl, rfl⟩
  · rintro _ _ ⟨rfl, rfl⟩
    exact Source.alike_block halike _ _

end Segment.AreMember

/-- Alternatives behind a head, each on a line of its own. -/
theorem Segment.areLines_onManyLines {head : Text} {ts : List Text} {X : List Segment}
    (hX : X.map content = (Text.onManyLines head ts).map (·, none)) :
    AreLines X head (ts.map ("| ".toList ++ ·)) where
  content := hX
  bars := by
    intro bar hbar
    obtain ⟨t, -, rfl⟩ := List.mem_map.1 hbar
    rfl

namespace FieldHead

variable {f : FieldHead} {ts : List Text} {X : List Segment}

theorem areMember_onOneLine (h : IsFieldName f.name) (hts : AreAlternatives ts)
    (hX : X.map Segment.content = [(Text.onOneLine f.text ts, none)]) :
    Segment.AreMember X ⟨f.code (Text.joinWith TypeExpr.bar ts), none⟩ := by
  have hends := ends_code h (IsAlternative.ends_joinWith hts.ne_nil hts.each TypeExpr.bar)
  exact ⟨_, [], ⟨hX, nofun⟩, ofLine?_text_append h _, startsMember_text_append h _,
    hends.endsWith (by decide), rfl⟩

theorem areMember_onManyLines (h : IsFieldName f.name) (hts : AreAlternatives ts)
    (hmark : ∀ t ∈ ts.dropLast, ¬ MemberLine.trailerMark <:+: t)
    (hX : X.map Segment.content = (Text.onManyLines f.text ts).map (·, none)) :
    Segment.AreMember X ⟨f.code (Text.barred ts), none⟩ := by
  have hnone := ofLine?_text_append h []
  have hstarts := startsMember_text_append h []
  rw [List.append_nil] at hnone hstarts
  exact ⟨_, _, Segment.areLines_onManyLines hX, hnone, hstarts,
    (ends_text h).endsWith (by decide), foldl_extend h hts hmark⟩

end FieldHead

/-! ## An alias on lines -/

/-- The first of the lines is the header of an alias, and together they make its expression. -/
def Segment.AreAlias (segments : List Segment) (name expr : Text) : Prop :=
  ∃ first header start bars, AreLines segments first bars ∧
    Header.ofLine? first = some header ∧ header.name = name ∧ header.aliasExpr? = some start ∧
    bars.foldl Section.continued start = expr

/-- The target of an alias. -/
theorem Member.ofAlias_of_ends {expr : Text} (hexpr : expr.Ends opensAlternative closesAlternative)
    {shape : Shape} (hshape : Shape.ofExpr expr = .ok shape) :
    ofAlias expr = .ok ⟨[], false, expr, none, shape⟩ := by
  rw [ofAlias, hshape, (solid_of_alternatives hexpr).trim]
  rfl

/-- The expression ends where no line of an alternative follows. -/
theorem Section.readAlias_end {owner expr : Text}
    (hexpr : expr.Ends opensAlternative closesAlternative) {body : List Segment}
    (hbody : ∀ s ∈ body.head?, Text.startsWith '|' s.text = false) :
    readAlias owner expr body = pure (.alias expr) := by
  have hsolid := solid_of_alternatives hexpr
  cases body with
  | nil => rfl
  | cons s body =>
    rw [readAlias]
    simp only [hsolid.not_blank, hsolid.trimEnd, hexpr.endsWith (c := '|') (by decide),
      hbody s rfl, Bool.and_false, Bool.or_false, Bool.false_eq_true, if_false]

namespace Segment.AreAlias

variable {X X' : List Segment} {name expr expr' : Text}

/-- What the section of an alias on lines is read as. -/
theorem exists_read (h : AreAlias X name expr)
    (hexpr : expr.Ends opensAlternative closesAlternative) :
    ∃ s rest header, X = s :: rest ∧ Header.ofLine? s.text = some header ∧ header.name = name ∧
      (∀ x ∈ rest, Header.ofLine? x.text = none) ∧
      ∀ body : List Segment, (∀ x ∈ body.head?, Text.startsWith '|' x.text = false) →
        Section.read ⟨header, s.line, rest ++ body⟩ = pure ⟨name, s.line, .alias expr⟩ := by
  obtain ⟨first, header, start, bars, hlines, hheader, rfl, hstart, rfl⟩ := h
  obtain ⟨s, rest, rfl, rfl, -, rfl, hbars⟩ := hlines.exists_cons
  refine ⟨s, rest, header, rfl, hheader, rfl,
    fun x hx => Header.ofLine?_of_alternative (hbars x hx), fun body hbody => ?_⟩
  simp only [Section.read_eq, Section.readBody, hstart]
  rw [Section.readAlias_bars _ _ hbars, Section.readAlias_end hexpr hbody, pure_bind]

/-- Lines that make expressions of the same shape stand for one another. -/
theorem related {before A A' : List Segment} (h : AreAlias X name expr)
    (h' : AreAlias X' name expr') (hexpr : expr.Ends opensAlternative closesAlternative)
    (hexpr' : expr'.Ends opensAlternative closesAlternative) {shape : Shape}
    (hshape : Shape.ofExpr expr = .ok shape) (hshape' : Shape.ofExpr expr' = .ok shape)
    (hA : A.map Segment.content = A'.map Segment.content)
    (hend : ∀ s ∈ A.head?, Text.startsWith '|' s.text = false) :
    List.Forall₂ (Section.Related Source.Alike) (Section.ofSegments (before ++ (X ++ A)))
      (Section.ofSegments (before ++ (X' ++ A'))) := by
  obtain ⟨s, rest, header, rfl, hs, hname, hrest, hread⟩ := h.exists_read hexpr
  obtain ⟨s', rest', header', rfl, hs', hname', hrest', hread'⟩ := h'.exists_read hexpr'
  refine Section.related_append (fun _ _ => Source.alike_of_content) hs hs' hrest hrest' hA
    (hname.trans hname'.symm) fun body hbody => ?_
  have hend' : ∀ x ∈ body.head?, Text.startsWith '|' x.text = false := by
    intro x hx
    obtain ⟨tail, rfl⟩ := List.head?_eq_some_iff.1 hx
    obtain ⟨rest, rfl⟩ := hbody
    exact hend x rfl
  rw [hread body hend', hread' body hend']
  exact .ok (Source.alike_alias (Member.ofAlias_of_ends hexpr hshape)
    (Member.ofAlias_of_ends hexpr' hshape') rfl
    (solid_of_alternatives hexpr).not_blank
    (solid_of_alternatives hexpr').not_blank)

end Segment.AreAlias

/-! ## The header of an alias -/

/-- What stands of an alias before its alternatives. -/
def Text.aliasHead (name : Text) : Text := "type ".toList ++ name ++ " =".toList

theorem Text.newline_joinWith {ts : List Text} (hne : ts ≠ []) (h : ∀ t ∈ ts, '\n' ∉ t) :
    '\n' ∉ joinWith TypeExpr.bar ts :=
  joinWith_of_append (fun t u ht hu => by simp [ht, hu]) (by decide) hne h

theorem IsAlternative.newline {t : Text} (h : IsAlternative t) : '\n' ∉ t := by
  induction h with
  | name _ hn => exact fun hmem => absurd (List.all_eq_true.1 hn _ hmem) (by decide)
  | literal hmark hv =>
    have hne : '\n' ≠ _ := (ne_of_class hmark (x := '\n') (by decide)).symm
    simp only [List.cons_append, List.mem_cons, List.mem_append, List.not_mem_nil, or_false, hne,
      false_or]
    exact fun hmem => absurd (List.all_eq_true.1 hv _ hmem) (by decide)
  | array _ ih => simp [ih]
  | record hkeys hvalues _ _ ihkeys ihvalues =>
    simp [Text.newline_joinWith hkeys ihkeys, Text.newline_joinWith hvalues ihvalues]
  | parens hne _ ih => simp [TypeExpr.parenthesized, Text.newline_joinWith hne ih]

namespace Header

variable {name : Text}

theorem isFree_of_continuesName {c : Char} (h : continuesName c = true) : isFree c = true := by
  have hsigns : codeSigns.contains c = false := by
    have hc : c ∉ codeSigns := not_mem_of_class h (by decide +kernel)
    simpa using hc
  rw [isFree, isBlank_of_continuesName h, hsigns]
  rfl

/-- The header of an alias with `t` behind the equals sign. -/
theorem ofLine?_aliasHead_append (hname : isName name = true) {t : Text}
    (ht : Text.Solid ('=' :: t)) (hline : '\n' ∉ t) :
    ofLine? (Text.aliasHead name ++ t) = some ⟨name, '=' :: t⟩ := by
  have htext : Text.aliasHead name ++ t = "type".toList ++ ' ' :: (name ++ ' ' :: '=' :: t) := by
    simp [Text.aliasHead]
  rw [htext]
  exact ofLine?_of_cutName? (.inr rfl) (solid_of_isName hname) (cutName?_of_isName hname _) ht
    (by simp [hline])

variable {ts : List Text}

theorem aliasExpr?_of_ends {expr : Text} (hexpr : expr.Ends opensAlternative closesAlternative) :
    aliasExpr? ⟨name, '=' :: ' ' :: expr⟩ = some expr := by
  have hopen : Text.endsWith '\x7b' ("= ".toList ++ expr) = false := by
    rw [Text.endsWith_append hexpr.ne_nil]
    exact hexpr.endsWith (by decide)
  rw [aliasExpr?, if_neg (by simpa using hopen)]
  exact congrArg some (solid_of_alternatives hexpr).trim_space

/-- The line of the header is held as one segment. -/
theorem oneSegment_aliasHead_append (hname : isName name = true) {t : Text}
    (ht : Cutter.Holds t) (hsolid : Text.Solid (Text.aliasHead name ++ t)) :
    Text.OneSegment (Text.aliasHead name ++ t) := by
  have hall : name.all continuesName = true := by
    simp only [isName, Bool.and_eq_true] at hname
    exact hname.2
  have hname' : Cutter.Holds name :=
    .of_all (fun _ hc => .free (isFree_of_continuesName hc)) hall
  have hplain : ∀ {u : Text}, u.all isPlain = true → Cutter.Holds u :=
    .of_all fun _ => .plain
  have hword : Cutter.Holds ("ype ".toList ++ name ++ [' ']) :=
    ((hplain (by decide)).append hname').append (hplain (by decide))
  refine Text.oneSegment_of_holding hsolid fun b hb => ?_
  have htext : Text.aliasHead name ++ t =
      't' :: ("ype ".toList ++ name ++ [' ']) ++ '=' :: t := by
    simp [Text.aliasHead]
  have hheld := Cutter.ready_start.hold_line hb (c := 't') (by decide) (by decide) (by decide) hword
  have hdone := hheld.equals.holds ht
  rw [htext, ← List.append_assoc, Cutter.run_append, Cutter.run_cons]
  rwa [List.append_assoc _ ['='] t] at hdone

end Header

/-! ## The lines of an alias -/

/-- Alternatives on lines of their own make the expression in which each follows a bar. -/
theorem Section.foldl_continued {ts : List Text} (hne : ts ≠ []) :
    (ts.map ("| ".toList ++ ·)).foldl continued [] = Text.barred ts := by
  have hmore : ∀ (us : List Text) (expr : Text), expr ≠ [] →
      (us.map ("| ".toList ++ ·)).foldl continued expr =
        expr ++ us.flatMap (TypeExpr.bar ++ ·) := by
    intro us
    induction us with
    | nil => simp
    | cons u us ih =>
      intro expr hexpr
      have hstep : continued expr ("| ".toList ++ u) = expr ++ (TypeExpr.bar ++ u) := by
        rw [continued, if_neg hexpr]
        rfl
      rw [List.map_cons, List.foldl_cons, hstep, ih _ (by simp [hexpr]), List.flatMap_cons,
        List.append_assoc]
  obtain ⟨t, us, rfl⟩ := List.exists_cons_of_ne_nil hne
  have hfirst := hmore us ("| ".toList ++ t) (List.cons_ne_nil _ _)
  have hbarred := Text.flatMap_bar hne
  rw [List.flatMap_cons] at hbarred
  exact hfirst.trans (List.cons.inj hbarred).2

namespace Header

variable {name : Text}

theorem solid_aliasHead (name : Text) : Text.Solid (Text.aliasHead name) := by
  have hall := (Text.Solid.singleton (c := 't') (by decide)).append
    (Text.Solid.singleton (c := '=') (by decide)) ("ype ".toList ++ name ++ [' '])
  simpa [Text.aliasHead] using hall

/-- The line of an alias with a union on it. -/
theorem oneSegment_onOneLine (hname : isName name = true) {ts : List Text}
    (hts : AreAlternatives ts) : (Text.onOneLine (Text.aliasHead name) ts).OneSegment := by
  have hends := IsAlternative.ends_joinWith hts.ne_nil hts.each TypeExpr.bar
  have hspace : Cutter.Holds [' '] := .plain (by decide)
  refine oneSegment_aliasHead_append hname
    (hspace.append (.joinWith_bar hts.ne_nil fun t ht => (hts.each t ht).holds)) ?_
  have hsolid := (solid_aliasHead name).append (solid_of_alternatives hends) [' ']
  simpa using hsolid

/-- The line of the header alone. -/
theorem oneSegment_aliasHead (hname : isName name = true) :
    (Text.aliasHead name).OneSegment := by
  have hone := oneSegment_aliasHead_append hname (t := []) .nil
    (by rw [List.append_nil]; exact solid_aliasHead name)
  rwa [List.append_nil] at hone

end Header

section Alias

variable {name : Text} {ts : List Text} {X : List Segment} (hname : Header.isName name = true)
  (hts : AreAlternatives ts)
include hname hts

theorem Segment.areAlias_onOneLine
    (hX : X.map content = [(Text.onOneLine (Text.aliasHead name) ts, none)]) :
    AreAlias X name (Text.joinWith TypeExpr.bar ts) := by
  have hends := IsAlternative.ends_joinWith hts.ne_nil hts.each TypeExpr.bar
  refine ⟨_, _, _, [], ⟨hX, nofun⟩, Header.ofLine?_aliasHead_append hname ?_ ?_, rfl,
    Header.aliasExpr?_of_ends hends, rfl⟩
  · have hsolid := solid_of_alternatives hends
    simpa using (Text.Solid.singleton (c := '=') (by decide)).append hsolid [' ']
  · have hjoin : '\n' ∉ Text.joinWith TypeExpr.bar ts :=
      Text.newline_joinWith hts.ne_nil fun t ht => (hts.each t ht).newline
    simp [hjoin]

theorem Segment.areAlias_onManyLines
    (hX : X.map content = (Text.onManyLines (Text.aliasHead name) ts).map (·, none)) :
    AreAlias X name (Text.barred ts) := by
  have hheader := Header.ofLine?_aliasHead_append hname (t := []) (.singleton (by decide))
    (by decide)
  rw [List.append_nil] at hheader
  exact ⟨_, _, [], _, areLines_onManyLines hX, hheader, rfl, rfl,
    Section.foldl_continued hts.ne_nil⟩

end Alias

/-! ## Texts with unions -/

namespace Text

/-- Behind `before` the lines add the member `m` to the block of `owner`, and nothing else. -/
def AddsMember (before owner : Text) (lines : List Text) (m : Member) : Prop :=
  ∀ options : Options,
    (Declaration.ofText options (joinWith ['\n'] (before :: lines))).result =
      (Declaration.ofText options before).result.map (List.map (Declaration.addMember owner m))

/-- Behind `before` the lines add the declaration `d`, and nothing else. -/
def AddsDeclaration (before : Text) (lines : List Text) (d : Declaration) : Prop :=
  ∀ options : Options,
    (Declaration.ofText options (joinWith ['\n'] (before :: lines))).result =
      Declaration.addTo d (Declaration.ofText options before).result

/-- Behind `before`, either lines give the same declarations, but for the texts of types, if what
follows them is `after`. -/
def DeclareAlike (before : Text) (one many : List Text) (after : Text) : Prop :=
  ∀ options : Options,
    (Declaration.ofText options (joinWith ['\n'] (before :: (one ++ [after])))).result.map
        (List.map Declaration.forgetTypes) =
      (Declaration.ofText options (joinWith ['\n'] (before :: (many ++ [after])))).result.map
        (List.map Declaration.forgetTypes)

namespace Written

variable {before : Text} (hbefore : before.Closed) {lines codes : List Text}
  (h : Written lines codes)
include hbefore h

theorem addsMember {owner : Text} {line : MemberLine}
    (hplace : (Walk.start.after (Segment.cut before)).place = .block owner 0)
    (hlines : ∀ X : List Segment, X.map Segment.content = codes.map (·, none) →
      Segment.AreMember X line) {m : Member} (hm : line.member? = .ok (some m)) :
    AddsMember before owner lines m := by
  intro options
  obtain ⟨X, hcut, hX⟩ := Segment.exists_cut_lines hbefore h
  have hmember := hlines X hX
  obtain ⟨read, earlier, s, header, b, hbefore, hs, rfl, hb, hread⟩ :=
    Walk.exists_continues hplace
  have hbody : ∀ x ∈ b ++ X, Header.ofLine? x.text = none :=
    fun x hx => (List.mem_append.1 hx).elim (hb x) (hmember.noHeaders x)
  have hsections := Section.ofSegments_concat hs hb earlier
  have hsections' := Section.ofSegments_concat hs hbody earlier
  rw [← hbefore] at hsections
  rw [← List.cons_append, ← List.append_assoc, ← hbefore, ← hcut] at hsections'
  have hblock := hread []
  have hblock' := Section.readBlock_areMember header.name read [] hmember
  rw [List.append_nil] at hblock hblock'
  refine Declaration.ofText_addLine options hsections hsections' rfl rfl hblock ?_ hm
  rw [hread]
  dsimp only
  rw [Logged.map_eq, hblock']
  exact congrArg (fun lines => Except.ok (SourceBody.block lines)) List.reverse_cons

theorem addsAlias {name expr : Text} (hnew : name ∉ Segment.headerNames (Segment.cut before))
    (hlines : ∀ X : List Segment, X.map Segment.content = codes.map (·, none) →
      Segment.AreAlias X name expr) (hexpr : expr.Ends opensAlternative closesAlternative)
    {m : Member} (hm : Member.ofAlias expr = .ok m) :
    AddsDeclaration before lines ⟨name, .alias m⟩ := by
  intro options
  obtain ⟨X, hcut, hX⟩ := Segment.exists_cut_lines hbefore h
  obtain ⟨s, rest, header, rfl, hs, rfl, hrest, hread⟩ := (hlines X hX).exists_read hexpr
  have hsections : Section.ofSegments (Segment.cut (joinWith ['\n'] (before :: lines))) =
      Section.ofSegments (Segment.cut before) ++ [⟨header, s.line, rest⟩] := by
    rw [hcut, Section.ofSegments_concat hs hrest]
  have hsource := congrArg Logged.result (hread [] nofun)
  rw [List.append_nil] at hsource
  refine Declaration.ofText_addSection options hsections hnew hsource
    (solid_of_alternatives hexpr).not_blank ?_
  simp only [Declaration.ofSource, hm]
  rfl

theorem declareAlike {lines' codes' : List Text} (h' : Written lines' codes') {after : Text}
    (hlines : ∀ X X' A A' : List Segment, X.map Segment.content = codes.map (·, none) →
      X'.map Segment.content = codes'.map (·, none) →
      A.map Segment.content = (Segment.cut after).map Segment.content →
      A'.map Segment.content = (Segment.cut after).map Segment.content →
      List.Forall₂ (Section.Related Source.Alike)
        (Section.ofSegments (Segment.cut before ++ (X ++ A)))
        (Section.ofSegments (Segment.cut before ++ (X' ++ A')))) :
    DeclareAlike before lines lines' after := by
  intro options
  obtain ⟨X, A, hcut, hX, hA⟩ := Segment.exists_cut_lines_concat hbefore h after
  obtain ⟨X', A', hcut', hX', hA'⟩ := Segment.exists_cut_lines_concat hbefore h' after
  refine Declaration.forgetTypes_ofText ?_ options
  rw [hcut, hcut']
  exact hlines X X' A A' hX hX' hA hA'

end Written

variable {head : Text} {ts lines : List Text}

theorem written_onOneLine (hhead : (onOneLine head ts).OneSegment)
    (h : List.Forall₂ Indented lines [onOneLine head ts]) : Written lines [onOneLine head ts] where
  indented := h
  oneSegment := List.forall_mem_singleton.2 hhead
  ne_nil := List.cons_ne_nil _ _

theorem written_onManyLines (hts : AreAlternatives ts) (hhead : head.OneSegment)
    (h : List.Forall₂ Indented lines (onManyLines head ts)) :
    Written lines (onManyLines head ts) where
  indented := h
  oneSegment := by
    refine List.forall_mem_cons.2 ⟨hhead, fun bar hbar => ?_⟩
    obtain ⟨t, ht, rfl⟩ := List.mem_map.1 hbar
    exact (hts.each t ht).oneSegment
  ne_nil := List.cons_ne_nil _ _

end Text

section Layouts

variable {ts : List Text} (hts : AreAlternatives ts)
  (hparens : Text.insideParens? (Text.joinWith TypeExpr.bar ts) = none) {shape : Shape}
  (hshape : Shape.ofAlternatives ts = .ok shape) {before : Text} (hbefore : before.Closed)
  {one many : List Text}
include hts hparens hshape hbefore

/-- A member in a block reads the same from one line and from several. -/
theorem FieldHead.unionLayouts {f : FieldHead} (hf : IsFieldName f.name)
    (hmark : ∀ t ∈ ts.dropLast, ¬ MemberLine.trailerMark <:+: t)
    (hone : List.Forall₂ Text.Indented one [Text.onOneLine f.text ts])
    (hmany : List.Forall₂ Text.Indented many (Text.onManyLines f.text ts)) {owner : Text}
    (hplace : (Walk.start.after (Segment.cut before)).place = .block owner 0) :
    Text.AddsMember before owner one (f.member (Text.joinWith TypeExpr.bar ts) shape) ∧
      Text.AddsMember before owner many (f.member (Text.barred ts) shape) ∧
      ∀ after, MemberLine.endsMember ((Segment.cut after).map (·.text)) = true →
        Text.DeclareAlike before one many after := by
  have hwritten := Text.written_onOneLine (oneSegment_onOneLine hf hts) hone
  have hwritten' := Text.written_onManyLines hts (oneSegment_text hf) hmany
  have hjoin := member?_joinWith hf hts hshape hparens
  have hbarred := member?_barred hf hts hshape
  refine ⟨hwritten.addsMember hbefore hplace (fun _ => areMember_onOneLine hf hts) hjoin,
    hwritten'.addsMember hbefore hplace (fun _ => areMember_onManyLines hf hts hmark) hbarred,
    fun after hafter => ?_⟩
  refine hwritten.declareAlike hbefore hwritten' fun X X' A A' hX hX' hA hA' => ?_
  refine Segment.AreMember.related hplace (areMember_onOneLine hf hts hX)
    (areMember_onManyLines hf hts hmark hX') ?_ (hA.trans hA'.symm) ?_
  · change Logged.Agree _ _ _
    rw [hjoin, hbarred]
    exact .ok rfl
  · have htexts := congrArg (List.map Prod.fst) hA
    simp only [List.map_map, Function.comp_def, Segment.content] at htexts
    rwa [htexts]

/-- An alias reads the same from one line and from several. -/
theorem Header.unionLayouts {name : Text} (hname : isName name = true)
    (hone : List.Forall₂ Text.Indented one [Text.onOneLine (Text.aliasHead name) ts])
    (hmany : List.Forall₂ Text.Indented many (Text.onManyLines (Text.aliasHead name) ts)) :
    (name ∉ Segment.headerNames (Segment.cut before) →
      Text.AddsDeclaration before one
          ⟨name, .alias ⟨[], false, Text.joinWith TypeExpr.bar ts, none, shape⟩⟩ ∧
        Text.AddsDeclaration before many
          ⟨name, .alias ⟨[], false, Text.barred ts, none, shape⟩⟩) ∧
      ∀ after, (∀ s ∈ (Segment.cut after).head?, Text.startsWith '|' s.text = false) →
        Text.DeclareAlike before one many after := by
  have hends := IsAlternative.ends_joinWith hts.ne_nil hts.each TypeExpr.bar
  have hends' := IsAlternative.ends_barred hts.ne_nil hts.each
  have hjoin := (Shape.ofExpr_joinWith hts.ne_nil hts.each hparens).trans hshape
  have hbarred := (Shape.ofExpr_barred hts.ne_nil hts.each).trans hshape
  have hwritten := Text.written_onOneLine (oneSegment_onOneLine hname hts) hone
  have hwritten' := Text.written_onManyLines hts (oneSegment_aliasHead hname) hmany
  refine ⟨fun hnew =>
    ⟨hwritten.addsAlias hbefore hnew (fun _ => Segment.areAlias_onOneLine hname hts) hends
      (Member.ofAlias_of_ends hends hjoin),
    hwritten'.addsAlias hbefore hnew (fun _ => Segment.areAlias_onManyLines hname hts) hends'
      (Member.ofAlias_of_ends hends' hbarred)⟩, fun after hafter => ?_⟩
  refine hwritten.declareAlike hbefore hwritten' fun X X' A A' hX hX' hA hA' => ?_
  refine (Segment.areAlias_onOneLine hname hts hX).related
    (Segment.areAlias_onManyLines hname hts hX') hends hends' hjoin hbarred
    (hA.trans hA'.symm) fun s hs => ?_
  obtain ⟨tail, rfl⟩ := List.head?_eq_some_iff.1 hs
  obtain ⟨x, rest, hrest, hx, -⟩ := List.map_eq_cons_iff.1 hA.symm
  rw [← show x.text = s.text from congrArg Prod.fst hx]
  exact hafter x (by rw [hrest]; rfl)

end Layouts

namespace Declaration

/-- **Unions on one line and on several.** Written behind the head of a member or of an alias, the
same alternatives have the same shape on one line as on lines of their own, whatever stands before
and after. For a member no alternative but the last may hold ` // `, even in a literal; for either
the alternatives on one line must not be taken for one expression in parentheses. -/
theorem ofText_unionLayouts {ts : List Text} (hts : AreAlternatives ts)
    (hparens : Text.insideParens? (Text.joinWith TypeExpr.bar ts) = none) {before : Text}
    (hbefore : before.Closed) (one many : List Text) :
    ∃ shape, Shape.ofAlternatives ts = .ok shape ∧
      (∀ (f : FieldHead) (owner : Text), IsFieldName f.name →
        (∀ t ∈ ts.dropLast, ¬ MemberLine.trailerMark <:+: t) →
        List.Forall₂ Text.Indented one [Text.onOneLine f.text ts] →
        List.Forall₂ Text.Indented many (Text.onManyLines f.text ts) →
        (Walk.start.after (Segment.cut before)).place = .block owner 0 →
        Text.AddsMember before owner one (f.member (Text.joinWith TypeExpr.bar ts) shape) ∧
          Text.AddsMember before owner many (f.member (Text.barred ts) shape) ∧
          ∀ after, MemberLine.endsMember ((Segment.cut after).map (·.text)) = true →
            Text.DeclareAlike before one many after) ∧
      (∀ name : Text, Header.isName name = true →
        List.Forall₂ Text.Indented one [Text.onOneLine (Text.aliasHead name) ts] →
        List.Forall₂ Text.Indented many (Text.onManyLines (Text.aliasHead name) ts) →
        (name ∉ Segment.headerNames (Segment.cut before) →
          Text.AddsDeclaration before one
              ⟨name, .alias ⟨[], false, Text.joinWith TypeExpr.bar ts, none, shape⟩⟩ ∧
            Text.AddsDeclaration before many
              ⟨name, .alias ⟨[], false, Text.barred ts, none, shape⟩⟩) ∧
          ∀ after, (∀ s ∈ (Segment.cut after).head?, Text.startsWith '|' s.text = false) →
            Text.DeclareAlike before one many after) := by
  obtain ⟨shape, hshape⟩ := Shape.exists_ofAlternatives hts.two
  exact ⟨shape, hshape,
    fun _ _ hf hmark hone hmany hplace =>
      FieldHead.unionLayouts hts hparens hshape hbefore hf hmark hone hmany hplace,
    fun _ hname hone hmany => Header.unionLayouts hts hparens hshape hbefore hname hone hmany⟩

/-- Alternatives whose literals hold a bar and, in the last one, what looks like a comment. -/
def choices : List Text :=
  ['"' :: "a | b".toList ++ ['"'], "Item".toList ++ ['[', ']'],
    '\x27' :: "c // d".toList ++ ['\x27']]

/-- An interface that has begun. -/
def openText : Text := "interface Form \x7b\n  id: string;".toList

/-- An optional member. -/
def kindHead : FieldHead := ⟨"kind".toList, true⟩

def indented (lines : List Text) : List Text := lines.map ("  ".toList ++ ·)

theorem indented_forall₂ (lines : List Text) :
    List.Forall₂ Text.Indented (indented lines) lines := by
  rw [indented, List.forall₂_map_left_iff, List.forall₂_same]
  exact fun line _ => ⟨"  ".toList, rfl, rfl⟩

theorem areAlternatives_choices : AreAlternatives choices where
  two := by decide
  each := by
    simp only [choices, List.forall_mem_cons, List.not_mem_nil, false_implies, implies_true,
      and_true]
    exact ⟨.literal (by decide) (by decide), .array (.name (by decide) (by decide)),
      .literal (by decide) (by decide)⟩

theorem ofText_unionLayouts_choices :
    (AreAlternatives choices ∧ Text.insideParens? (Text.joinWith TypeExpr.bar choices) = none ∧
      openText.Closed ∧ IsFieldName kindHead.name ∧
      (∀ t ∈ choices.dropLast, ¬ MemberLine.trailerMark <:+: t)) ∧
    (Text.AddsMember openText "Form".toList (indented (Text.onManyLines kindHead.text choices))
        (kindHead.member (Text.barred choices) (.union
          [.literal "a | b".toList, .reference "Item[]".toList, .literal "c // d".toList])) ∧
      Text.DeclareAlike openText (indented [Text.onOneLine kindHead.text choices])
        (indented (Text.onManyLines kindHead.text choices)) "\x7d".toList) ∧
    ("Kind".toList ∉ Segment.headerNames (Segment.cut openText) ∧
      Text.AddsDeclaration openText
        (indented (Text.onManyLines (Text.aliasHead "Kind".toList) choices))
        ⟨"Kind".toList, .alias ⟨[], false, Text.barred choices, none, .union
          [.literal "a | b".toList, .reference "Item[]".toList, .literal "c // d".toList]⟩⟩ ∧
      Text.DeclareAlike openText
        (indented [Text.onOneLine (Text.aliasHead "Kind".toList) choices])
        (indented (Text.onManyLines (Text.aliasHead "Kind".toList) choices)) "\x7d".toList) := by
  have hparens : Text.insideParens? (Text.joinWith TypeExpr.bar choices) = none := by
    decide +kernel
  have hclosed : openText.Closed :=
    ⟨by decide +kernel, by decide +kernel, by decide +kernel, by decide +kernel⟩
  have hname : IsFieldName kindHead.name := ⟨by decide +kernel, by decide +kernel⟩
  have hmark : ∀ t ∈ choices.dropLast, ¬ MemberLine.trailerMark <:+: t := by decide +kernel
  have hshape : Shape.ofAlternatives choices = .ok (.union
      [.literal "a | b".toList, .reference "Item[]".toList, .literal "c // d".toList]) := by
    decide +kernel
  refine ⟨⟨areAlternatives_choices, hparens, hclosed, hname, hmark⟩, ?_, ?_⟩
  · obtain ⟨shape, hshape', hmember, -⟩ := ofText_unionLayouts areAlternatives_choices hparens
      hclosed (indented [Text.onOneLine kindHead.text choices])
      (indented (Text.onManyLines kindHead.text choices))
    obtain rfl := Except.ok.inj (hshape.symm.trans hshape')
    obtain ⟨-, hmany, halike⟩ := hmember kindHead "Form".toList hname hmark (indented_forall₂ _)
      (indented_forall₂ _) (by decide +kernel)
    exact ⟨hmany, halike _ (by decide +kernel)⟩
  · obtain ⟨shape, hshape', -, halias⟩ := ofText_unionLayouts areAlternatives_choices hparens
      hclosed (indented [Text.onOneLine (Text.aliasHead "Kind".toList) choices])
      (indented (Text.onManyLines (Text.aliasHead "Kind".toList) choices))
    obtain rfl := Except.ok.inj (hshape.symm.trans hshape')
    have hnew : "Kind".toList ∉ Segment.headerNames (Segment.cut openText) := by decide +kernel
    obtain ⟨hadds, halike⟩ := halias "Kind".toList (by decide +kernel) (indented_forall₂ _)
      (indented_forall₂ _)
    exact ⟨hnew, (hadds hnew).2, halike _ (by decide +kernel)⟩

/-- A literal before the last one holds ` // `. -/
def slashedChoices : List Text :=
  ['"' :: "a // b".toList ++ ['"'], '"' :: ['c'] ++ ['"']]

/-- The first and the last alternative are in parentheses, and so are literals in them. -/
def parenthesizedChoices : List Text :=
  [TypeExpr.parenthesized (Text.joinWith TypeExpr.bar [['A'], '"' :: ['('] ++ ['"']]),
    TypeExpr.parenthesized (Text.joinWith TypeExpr.bar [['C'], '"' :: [')'] ++ ['"']])]

/-- The second alternative goes in front of the slashes in the first literal, and on one line the
parenthesis in a literal passes for the last one. -/
theorem ofText_unionLayouts_exceptions :
    (AreAlternatives slashedChoices ∧
      (ofText {} (Text.joinWith ['\n'] ["interface A \x7b".toList,
        Text.onOneLine "k:".toList slashedChoices, "\x7d".toList])).result.map
          (List.map forgetTypes) =
        .ok [⟨['A'], .block [⟨['k'], false, [], none, .enum ["a // b".toList, ['c']]⟩]⟩] ∧
      (ofText {} (Text.joinWith ['\n'] ("interface A \x7b".toList ::
        Text.onManyLines "k:".toList slashedChoices ++ ["\x7d".toList]))).result.map
          (List.map forgetTypes) =
        .ok [⟨['A'], .block [⟨['k'], false, [], none, .enum ["a | \"c\" // b".toList]⟩]⟩]) ∧
    (AreAlternatives parenthesizedChoices ∧
      ¬ Text.DeclareAlike [] [Text.onOneLine (Text.aliasHead ['N']) parenthesizedChoices]
        (Text.onManyLines (Text.aliasHead ['N']) parenthesizedChoices) []) := by
  have hliteral : ∀ v : Text, v.all isQuotable = true → IsAlternative ('"' :: v ++ ['"']) :=
    fun v hv => .literal (by decide) hv
  refine ⟨⟨⟨by decide, ?_⟩, by decide +kernel, by decide +kernel⟩, ⟨by decide, ?_⟩, ?_⟩
  · simp only [slashedChoices, List.forall_mem_cons, List.not_mem_nil, false_implies,
      implies_true, and_true]
    exact ⟨hliteral _ (by decide), hliteral _ (by decide)⟩
  · have hparens : ∀ n v : Text, n ≠ [] → n.all isFree = true → v.all isQuotable = true →
        IsAlternative (TypeExpr.parenthesized
          (Text.joinWith TypeExpr.bar [n, '"' :: v ++ ['"']])) := by
      intro n v hne hn hv
      refine .parens (List.cons_ne_nil _ _) ?_
      rw [List.forall_mem_cons, List.forall_mem_singleton]
      exact ⟨.name hne hn, hliteral v hv⟩
    rw [parenthesizedChoices, List.forall_mem_cons, List.forall_mem_singleton]
    exact ⟨hparens _ _ (by decide) (by decide) (by decide),
      hparens _ _ (by decide) (by decide) (by decide)⟩
  · intro halike
    exact absurd (halike {}) (by decide +kernel)

end Declaration

end InterfaceForms

import InterfaceForms.Proofs.Braces
import InterfaceForms.Proofs.Logged
import InterfaceForms.Proofs.PrintedSources
import Mathlib.Data.Option.Basic

/-!
# Blocks

A block ends at the brace that closes it, and its members are the lines outside its inner pairs of
braces. So it is where each inner pair is opened by the line of a member: the braces are counted
from there. Where another line opens one, such as an index signature or an alternative, they are
not: the lines of the inner pair are taken for members, and its closing brace ends the block.

* `Segment.outside?`: the segments of a block outside its inner pairs of braces.
* `Source.scan_block`: the source of a block whose inner pairs are opened by members.
* `Source.scan_indexed`: a block that ends at the closing brace of an inner pair.
-/

namespace InterfaceForms

/-! ## Blocks by their braces -/

namespace Segment

/-- The segments of a text, each with its ending. -/
def marked (t : Text) : List (Segment × Ending) := (cut t).zip (endings t)

/-- The segments of a block outside its inner pairs of braces, up to the brace that closes the
block, if there is one. `depth` counts the inner pairs that are open. -/
def outside? (depth : Nat) : List (Segment × Ending) → Option (List (Segment × Ending))
  | [] => none
  | (s, e) :: rest =>
    match e, depth with
    | .closing, 0 => some []
    | .closing, depth + 1 => outside? depth rest
    | .opening, 0 => ((s, e) :: ·) <$> outside? 1 rest
    | .opening, depth + 1 => outside? (depth + 2) rest
    | .line, 0 => ((s, e) :: ·) <$> outside? 0 rest
    | .line, depth + 1 => outside? (depth + 1) rest

theorem map_marked (t : Text) : (marked t).map Prod.fst = cut t :=
  List.map_fst_zip (Nat.le_of_eq (fits_endings t).length_eq)

theorem fits_marked {t : Text} {p : Segment × Ending} (h : p ∈ marked t) : p.1.Fits p.2 :=
  (List.forall₂_iff_zip.1 (fits_endings t)).2 h

theorem Fits.ne_brace {s : Segment} (h : s.Fits .opening) : s.text ≠ ['\x7d'] := by
  have hopen : Text.endsWith '\x7b' s.text = true := h
  intro heq
  rw [heq] at hopen
  cases hopen

end Segment

/-- The segments open a block with the header: the brace ends the line of the header, or stands on
a line after it. -/
inductive Header.Opens (h : Header) : Nat → List (Segment × Ending) → Prop
  | sameLine {s : Segment} (hheader : ofLine? s.text = some h) : Opens h s.line [(s, .opening)]
  | nextLine {s brace : Segment} (hheader : ofLine? s.text = some h)
    (hblock : ∀ expr ∈ h.aliasExpr?, Text.blank expr = true) (hbrace : brace.text = ['\x7b']) :
    Opens h s.line [(s, .line), (brace, .opening)]

/-- A text with one declaration, which is a block. -/
structure OneBlock (t : Text) where
  header : Header
  line : Nat
  before : List (Segment × Ending)
  opener : List (Segment × Ending)
  /-- What follows the opening brace, to the end of the text. -/
  body : List (Segment × Ending)
  /-- The segments of the block outside its inner pairs of braces. -/
  outer : List (Segment × Ending)
  marked_eq : Segment.marked t = before ++ (opener ++ body)
  opens : header.Opens line opener
  closes : Segment.outside? 0 body = some outer
  single : ∀ p ∈ before ++ body, Header.ofLine? p.1.text = none

/-! ## The members of a block -/

namespace MemberLine

/-- The line of a member. An object written out keeps an empty pair of braces. -/
def ofSegment (s : Segment) : MemberLine :=
  match Section.beforeBrace? s.text with
  | some head => ⟨Text.trimEnd head ++ " \x7b\x7d".toList, s.doc⟩
  | none => ⟨s.text, s.doc⟩

/-- The alternatives on lines of their own, up to the next member. -/
def alternatives (outer : List Segment) : List Text :=
  ((outer.takeWhile fun s => !startsMember s.text).filter (Text.startsWith '|' ·.text)).map (·.text)

/-- The members in the segments outside the inner pairs of braces, each with its alternatives. -/
def ofBlock : List Segment → List MemberLine
  | [] => []
  | s :: rest =>
    if startsMember s.text then (alternatives rest).foldl extend (ofSegment s) :: ofBlock rest
    else ofBlock rest

/-- The members of a block of which the segments `outer` remain, where `lines` are those read
before, last first: the last of them takes the alternatives. -/
def completed (lines : List MemberLine) (outer : List Segment) : List MemberLine :=
  (lines.modifyHead fun line => (alternatives outer).foldl extend line).reverse ++ ofBlock outer

/-- The object that a member has for its type. -/
def warning? (owner : Text) (s : Segment) : Option Warning :=
  (Section.beforeBrace? s.text).map fun head => .inlineObjectMember owner (Text.trim head)

theorem completed_nil (lines : List MemberLine) : completed lines [] = lines.reverse := by
  cases lines <;> simp [completed, alternatives, ofBlock]

variable {s : Segment} (lines : List MemberLine) (outer : List Segment)

theorem completed_member (h : startsMember s.text = true) :
    completed lines (s :: outer) = completed (ofSegment s :: lines) outer := by
  have hnone : alternatives (s :: outer) = [] := by simp [alternatives, h]
  cases lines <;> simp [completed, ofBlock, h, hnone]

/-- Of what is no member, only an alternative counts. -/
theorem completed_other (h : startsMember s.text = false) :
    completed lines (s :: outer) =
      completed (if Text.startsWith '|' s.text then extendLast s.text lines else lines) outer := by
  split
  · rename_i hbar
    have hmore : alternatives (s :: outer) = s.text :: alternatives outer := by
      simp [alternatives, h, hbar]
    cases lines <;> simp [completed, ofBlock, extendLast, h, hmore]
  · rename_i hbar
    have hsame : alternatives (s :: outer) = alternatives outer := by
      simp [alternatives, h, hbar]
    simp [completed, ofBlock, h, hsame]

/-- An alternative is no member. -/
theorem startsMember_of_bar {t : Text} (h : Text.startsWith '|' t = true) :
    startsMember t = false := by
  have hletter : Text.isAlphabetic '|' = false := by decide +kernel
  cases t with
  | nil => rfl
  | cons c t =>
    obtain rfl : c = '|' := by simpa [Text.startsWith] using h
    simp [startsMember, hletter]

theorem not_bar_of_startsMember {t : Text} (h : startsMember t = true) :
    Text.startsWith '|' t = false := by
  rw [Bool.eq_false_iff]
  intro hbar
  rw [startsMember_of_bar hbar] at h
  cases h

end MemberLine

/-! ## Reading a block -/

namespace Section

variable {s : Segment} (owner : Text) (lines : List MemberLine) (rest : List Segment)

theorem readBlock_end (h : s.text = ['\x7d']) :
    readBlock owner 0 lines (s :: rest) = pure lines.reverse := by
  rw [readBlock, if_pos h]

theorem readBlock_brace (h : s.text = ['\x7d']) (depth : Nat) :
    readBlock owner (depth + 1) lines (s :: rest) = readBlock owner depth lines rest := by
  rw [readBlock, if_pos h]

theorem readBlock_inner (h : s.text ≠ ['\x7d']) (depth : Nat) :
    readBlock owner (depth + 1) lines (s :: rest) =
      readBlock owner (if Text.endsWith '\x7b' s.text then depth + 2 else depth + 1) lines
        rest := by
  rw [readBlock, if_neg h, if_pos (Nat.succ_pos depth)]

theorem readBlock_member (h : s.text ≠ ['\x7d']) (hmember : MemberLine.startsMember s.text = true) :
    readBlock owner 0 lines (s :: rest) =
      ⟨(MemberLine.warning? owner s).toList, .ok ()⟩ >>= fun _ =>
        readBlock owner (if Text.endsWith '\x7b' s.text then 1 else 0)
          (MemberLine.ofSegment s :: lines) rest := by
  have hbar := MemberLine.not_bar_of_startsMember hmember
  rw [readBlock, if_neg h, if_neg (Nat.lt_irrefl 0), hbar, if_neg Bool.false_ne_true,
    if_pos hmember]
  cases hopen : Text.endsWith '\x7b' s.text with
  | true => simp [beforeBrace?, hopen, MemberLine.ofSegment, MemberLine.warning?, Logged.warn]
  | false =>
    simp [beforeBrace?, hopen, MemberLine.ofSegment, MemberLine.warning?, Logged.bind_eq,
      Logged.bind]

theorem readBlock_other (h : s.text ≠ ['\x7d']) (hmember : MemberLine.startsMember s.text = false) :
    readBlock owner 0 lines (s :: rest) =
      readBlock owner 0
        (if Text.startsWith '|' s.text then MemberLine.extendLast s.text lines else lines)
        rest := by
  rw [readBlock, if_neg h, if_neg (Nat.lt_irrefl 0), hmember, if_neg Bool.false_ne_true]
  split
  · rfl
  · rfl

/-- A line that no brace ends, read outside the inner pairs. -/
theorem readBlock_line (h : s.text ≠ ['\x7d']) (hopen : Text.endsWith '\x7b' s.text = false)
    {outer : List Segment}
    (hrest : ∀ lines, readBlock owner 0 lines rest =
      ⟨outer.filterMap (MemberLine.warning? owner), .ok (MemberLine.completed lines outer)⟩) :
    readBlock owner 0 lines (s :: rest) =
      ⟨(s :: outer).filterMap (MemberLine.warning? owner),
        .ok (MemberLine.completed lines (s :: outer))⟩ := by
  have hquiet : MemberLine.warning? owner s = none := by
    simp [MemberLine.warning?, beforeBrace?, hopen]
  rw [List.filterMap_cons_none hquiet]
  cases hmember : MemberLine.startsMember s.text with
  | true =>
    rw [readBlock_member owner lines rest h hmember, hquiet, hopen, if_neg Bool.false_ne_true,
      hrest, MemberLine.completed_member lines outer hmember]
    rfl
  | false =>
    rw [readBlock_other owner lines rest h hmember, hrest,
      MemberLine.completed_other lines outer hmember]

/-- The count of open braces is the depth of the inner pairs. So a block is read to the brace that
closes it, and its members are those outside the inner pairs. -/
theorem readBlock_outside {body outer : List (Segment × Ending)} {depth : Nat}
    (hfits : ∀ p ∈ body, p.1.Fits p.2)
    (hline : ∀ s, (s, .line) ∈ body → Text.endsWith '\x7b' s.text = false)
    (houter : Segment.outside? depth body = some outer)
    (hmember : ∀ s, (s, .opening) ∈ outer → MemberLine.startsMember s.text = true) :
    readBlock owner depth lines (body.map Prod.fst) =
      ⟨(outer.map Prod.fst).filterMap (MemberLine.warning? owner),
        .ok (MemberLine.completed lines (outer.map Prod.fst))⟩ := by
  induction body generalizing depth lines outer with
  | nil => cases houter
  | cons p body ih =>
    obtain ⟨s, e⟩ := p
    have hs : s.Fits e := hfits _ List.mem_cons_self
    have hfits' : ∀ p ∈ body, p.1.Fits p.2 := fun p hp => hfits p (List.mem_cons_of_mem _ hp)
    have hline' : ∀ s, (s, .line) ∈ body → Text.endsWith '\x7b' s.text = false :=
      fun s hs => hline s (List.mem_cons_of_mem _ hs)
    rw [List.map_cons]
    cases e with
    | closing =>
      cases depth with
      | zero =>
        obtain rfl := Option.some.inj houter
        rw [readBlock_end owner lines _ hs, List.map_nil, MemberLine.completed_nil]
        rfl
      | succ depth =>
        rw [readBlock_brace owner lines _ hs]
        exact ih _ hfits' hline' houter hmember
    | opening =>
      have hopen : Text.endsWith '\x7b' s.text = true := hs
      have hne := hs.ne_brace
      cases depth with
      | zero =>
        obtain ⟨outer, hrest, rfl⟩ := Option.map_eq_some_iff.1 houter
        have hstarts := hmember s List.mem_cons_self
        have hinner := ih (MemberLine.ofSegment s :: lines) hfits' hline' hrest
          fun s hs => hmember s (List.mem_cons_of_mem _ hs)
        obtain ⟨warning, hwarning⟩ : ∃ w, MemberLine.warning? owner s = some w := by
          simp [MemberLine.warning?, beforeBrace?, hopen]
        rw [readBlock_member owner lines _ hne hstarts, if_pos hopen, hinner, List.map_cons,
          MemberLine.completed_member lines _ hstarts, List.filterMap_cons_some hwarning, hwarning]
        rfl
      | succ depth =>
        rw [readBlock_inner owner lines _ hne, if_pos hopen]
        exact ih _ hfits' hline' houter hmember
    | line =>
      have hopen := hline s List.mem_cons_self
      cases depth with
      | zero =>
        obtain ⟨outer, hrest, rfl⟩ := Option.map_eq_some_iff.1 houter
        exact readBlock_line owner lines _ hs hopen fun lines => ih lines hfits' hline' hrest
          fun s hs => hmember s (List.mem_cons_of_mem _ hs)
      | succ depth =>
        rw [readBlock_inner owner lines _ hs, hopen, if_neg Bool.false_ne_true]
        exact ih _ hfits' hline' houter hmember

/-- A brace that ends another line is not counted: the lines of its pair are read for members, and
the brace that closes the pair ends the block. -/
theorem readBlock_uncounted {inner outer : List (Segment × Ending)} (h : s.Fits .opening)
    (hother : MemberLine.startsMember s.text = false) (hfits : ∀ p ∈ inner, p.1.Fits p.2)
    (hline : ∀ s, (s, .line) ∈ inner → Text.endsWith '\x7b' s.text = false)
    (houter : Segment.outside? 0 inner = some outer)
    (hmember : ∀ s, (s, .opening) ∈ outer → MemberLine.startsMember s.text = true) :
    (readBlock owner 0 lines (s :: inner.map Prod.fst)).result =
      .ok (MemberLine.completed lines (s :: outer.map Prod.fst)) := by
  rw [readBlock_other owner lines _ h.ne_brace hother,
    readBlock_outside owner _ hfits hline houter hmember,
    MemberLine.completed_other lines _ hother]

end Section

/-! ## Headers that end in an opening brace -/

namespace Text

variable {c : Char} {t : Text}

theorem endsWith_dropWord? {w u : Text} (hc : isBlank c = false) (h : endsWith c t = true)
    (hdrop : dropWord? w t = some u) : endsWith c u = true := by
  unfold dropWord? at hdrop
  split at hdrop
  · rename_i d rest hstart
    split at hdrop
    · rename_i hd
      obtain rfl := Option.some.inj hdrop
      rw [dropStart?_eq_some.1 hstart, endsWith_append (List.cons_ne_nil d rest)] at h
      -- The blank after the word is taken off with those that follow it.
      have hblank : (d :: rest).dropWhile isBlank = rest.dropWhile isBlank := by
        rw [List.dropWhile_cons, if_pos hd]
      have hrest := endsWith_dropWhile hc h
      rwa [hblank] at hrest
    · cases hdrop
  · cases hdrop

end Text

namespace Header

theorem endsWith_cutName? {c : Char} {t name rest : Text} (hstart : startsName c = false)
    (hname : continuesName c = false) (h : Text.endsWith c t = true)
    (hcut : cutName? t = some (name, rest)) : Text.endsWith c rest = true := by
  cases t with
  | nil => cases hcut
  | cons d t =>
    rw [cutName?] at hcut
    split at hcut
    · rename_i hd
      obtain ⟨-, rfl⟩ := Prod.mk.inj (Option.some.inj hcut)
      cases t with
      | nil =>
        obtain rfl : d = c := by simpa [Text.endsWith] using h
        rw [hstart] at hd
        cases hd
      | cons d' t => exact Text.endsWith_dropWhile hname (by simpa [Text.endsWith] using h)
    · cases hcut

/-- What follows the name ends as the line does. -/
theorem endsWith_rest {c : Char} {line : Text} {h : Header} (hblank : Text.isBlank c = false)
    (hstart : startsName c = false) (hname : continuesName c = false)
    (hline : ofLine? line = some h) (hends : Text.endsWith c line = true) :
    Text.endsWith c h.rest = true := by
  have hword : ∀ (w t : Text), Text.endsWith c t = true →
      Text.endsWith c ((Text.dropWord? w t).getD t) = true := by
    intro w t ht
    cases hdrop : Text.dropWord? w t with
    | none => exact ht
    | some u => exact Text.endsWith_dropWord? hblank ht hdrop
  have hprefix := hword "declare".toList _ (hword "export".toList line hends)
  simp only [ofLine?, Option.bind_eq_bind, Option.bind_eq_some_iff] at hline
  obtain ⟨named, hkeyword, ⟨name, rest⟩, hcut, hrest⟩ := hline
  have hnamed : Text.endsWith c named = true := by
    rcases (Option.orElse_eq_some _ _ _).1 hkeyword with hdrop | ⟨-, hdrop⟩
    · exact Text.endsWith_dropWord? hblank hprefix hdrop
    · exact Text.endsWith_dropWord? hblank hprefix hdrop
  split at hrest
  · cases hrest
  · obtain rfl := Option.some.inj hrest
    exact Text.endsWith_trim hblank
      (Text.endsWith_dropWhile hblank (endsWith_cutName? hstart hname hnamed hcut))

/-- A header whose line ends in an opening brace opens a block. -/
theorem aliasExpr?_of_endsWith {line : Text} {h : Header} (hline : ofLine? line = some h)
    (hopen : Text.endsWith '\x7b' line = true) : h.aliasExpr? = none := by
  have hname : continuesName '\x7b' = false := by decide +kernel
  rw [aliasExpr?, if_pos (endsWith_rest (by decide) (by decide) hname hline hopen)]

end Header

/-! ## The source of a block -/

/-- The section that the segments open gives the block that follows them. -/
theorem Header.Opens.read {h : Header} {line : Nat} {opener : List (Segment × Ending)}
    (hopens : h.Opens line opener) (hfits : ∀ p ∈ opener, p.1.Fits p.2) {body : List Segment}
    (hbody : ∀ s ∈ body, ofLine? s.text = none) :
    ∃ s : Section, Section.ofSegments (opener.map Prod.fst ++ body) = [s] ∧ s.header = h ∧
      s.read = Section.readBlock h.name 0 [] body >>= fun lines =>
        pure ⟨h.name, line, .block lines⟩ := by
  cases hopens with
  | @sameLine s hheader =>
    have hblock := aliasExpr?_of_endsWith hheader (hfits _ List.mem_cons_self)
    exact ⟨⟨h, s.line, body⟩, Section.ofSegments_last hheader hbody, rfl,
      by simp [Section.read, hblock]⟩
  | @nextLine s brace hheader hblock hbrace =>
    have hnone : ofLine? brace.text = none := by
      rw [hbrace]
      exact ofLine?_of_sign (n := []) rfl (by decide) (by decide)
    have hbody' : ∀ s ∈ brace :: body, ofLine? s.text = none := by
      simpa [hnone] using hbody
    refine ⟨⟨h, s.line, brace :: body⟩, Section.ofSegments_last hheader hbody', rfl, ?_⟩
    cases halias : h.aliasExpr? with
    | none =>
      have hother : MemberLine.startsMember ['\x7b'] = false := by decide +kernel
      have hskip : Section.readBlock h.name 0 [] (brace :: body) =
          Section.readBlock h.name 0 [] body := by
        rw [Section.readBlock_other _ _ _ (by rw [hbrace]; decide) (by rwa [hbrace]), hbrace]
        rfl
      simp [Section.read, halias, hskip]
    | some expr =>
      have hexpr := hblock expr halias
      simp [Section.read, halias, Section.readAlias, hbrace, hexpr]

namespace OneBlock

variable {t : Text} (b : OneBlock t)

/-- The source of the block: its members are those outside the inner pairs of braces. -/
def source : Source :=
  ⟨b.header.name, b.line, .block (MemberLine.ofBlock (b.outer.map Prod.fst))⟩

/-- The objects that are written out as the types of members. -/
def warnings : List Warning :=
  (b.outer.map Prod.fst).filterMap (MemberLine.warning? b.header.name)

theorem fits : ∀ p ∈ b.before ++ (b.opener ++ b.body), p.1.Fits p.2 := by
  intro p hp
  rw [← b.marked_eq] at hp
  exact Segment.fits_marked hp

/-- The text is one section, which gives the block up to the brace that closes it. -/
theorem read_section : ∃ s : Section, Section.ofSegments (Segment.cut t) = [s] ∧
    s.read = Section.readBlock b.header.name 0 [] (b.body.map Prod.fst) >>= fun lines =>
      pure ⟨b.header.name, b.line, .block lines⟩ := by
  have hbefore : ∀ s ∈ b.before.map Prod.fst, Header.ofLine? s.text = none := by
    intro s hs
    obtain ⟨p, hp, rfl⟩ := List.mem_map.1 hs
    exact b.single p (List.mem_append_left _ hp)
  have hbody : ∀ s ∈ b.body.map Prod.fst, Header.ofLine? s.text = none := by
    intro s hs
    obtain ⟨p, hp, rfl⟩ := List.mem_map.1 hs
    exact b.single p (List.mem_append_right _ hp)
  have hopener : ∀ p ∈ b.opener, p.1.Fits p.2 := fun p hp =>
    b.fits p (List.mem_append_right _ (List.mem_append_left _ hp))
  have hcut : Segment.cut t = b.before.map Prod.fst ++ (b.opener.map Prod.fst ++
      b.body.map Prod.fst) := by
    rw [← Segment.map_marked, b.marked_eq, List.map_append, List.map_append]
  obtain ⟨s, hsection, -, hread⟩ := b.opens.read hopener hbody
  refine ⟨s, ?_, hread⟩
  rw [hcut, Section.ofSegments_append hbefore, hsection]

end OneBlock

namespace Source

/-- A single section that gives a block gives the only source of the text. -/
theorem scan_of_section {t : Text} {s : Section} {source : Source} {warnings : List Warning}
    (policy : DuplicatePolicy) (hsection : Section.ofSegments (Segment.cut t) = [s])
    (hread : s.read = ⟨warnings, .ok source⟩) (hblock : source.isBlankAlias = false) :
    scan policy t = ⟨warnings, .ok [source]⟩ := by
  have hcollect : collect policy [] (Section.ofSegments (Segment.cut t)) =
      ⟨warnings, .ok [source]⟩ := by
    have hnew : checkDuplicate policy [] s = pure () := checkDuplicate_of_new nofun
    rw [hsection, collect, hnew, pure_bind, hread, Logged.ok_bind]
    simp [collect, put, Logged.pure_eq, Logged.pure]
  have hkept : dropBlankAliases [source] = pure [source] := by
    simp [dropBlankAliases, hblock, Logged.pure_eq, Logged.pure]
  rw [scan, hcollect, Logged.ok_bind, hkept, pure_bind, if_neg (List.cons_ne_nil source [])]
  simp [Logged.pure_eq, Logged.pure]

/-- A block whose inner pairs of braces are opened by members is read to the brace that closes it:
its members are all those outside the inner pairs, in order, and no others. A line that no brace
ends may not look as if one did, as a literal that is left open can. -/
theorem scan_block (policy : DuplicatePolicy) {t : Text} (b : OneBlock t)
    (hmember : ∀ s, (s, .opening) ∈ b.outer → MemberLine.startsMember s.text = true)
    (hline : ∀ s, (s, .line) ∈ b.body → Text.endsWith '\x7b' s.text = false) :
    scan policy t = ⟨b.warnings, .ok [b.source]⟩ := by
  obtain ⟨s, hsection, hread⟩ := b.read_section
  have hfits : ∀ p ∈ b.body, p.1.Fits p.2 := fun p hp =>
    b.fits p (List.mem_append_right _ (List.mem_append_right _ hp))
  have hblock := Section.readBlock_outside b.header.name [] hfits hline b.closes hmember
  rw [hblock, Logged.ok_bind] at hread
  refine scan_of_section policy hsection (hread.trans ?_) rfl
  simp [Logged.pure_eq, Logged.pure, MemberLine.completed, OneBlock.warnings, OneBlock.source]

end Source

/-! ## Two blocks -/

namespace OneBlock

/-- A block with a pair of braces inside a pair, and alternatives on lines of their own after
them. -/
def nestedText : Text :=
  ("interface A \x7b\n  meta: \x7b\n    deep: \x7b x: string \x7d\n    'y': number\n  \x7d\n" ++
    "  mode:\n    | 'a'\n    | 'b'\n\x7d\n").toList

def nested : OneBlock nestedText where
  header := ⟨"A".toList, ['\x7b']⟩
  line := 1
  before := []
  opener := [(⟨"interface A \x7b".toList, 1, none⟩, .opening)]
  body := [(⟨"meta: \x7b".toList, 2, none⟩, .opening), (⟨"deep: \x7b".toList, 3, none⟩, .opening),
    (⟨"x: string".toList, 3, none⟩, .line), (⟨['\x7d'], 3, none⟩, .closing),
    (⟨"'y': number".toList, 4, none⟩, .line), (⟨['\x7d'], 5, none⟩, .closing),
    (⟨"mode:".toList, 6, none⟩, .line), (⟨"| 'a'".toList, 7, none⟩, .line),
    (⟨"| 'b'".toList, 8, none⟩, .line), (⟨['\x7d'], 9, none⟩, .closing)]
  outer := [(⟨"meta: \x7b".toList, 2, none⟩, .opening), (⟨"mode:".toList, 6, none⟩, .line),
    (⟨"| 'a'".toList, 7, none⟩, .line), (⟨"| 'b'".toList, 8, none⟩, .line)]
  marked_eq := by decide +kernel
  opens := .sameLine (s := ⟨"interface A \x7b".toList, 1, none⟩) (by decide +kernel)
  closes := by decide +kernel
  single := by decide +kernel

/-- A block with a pair of braces that an index signature opens. -/
def indexedText : Text :=
  ("interface A \x7b\n  [key: string]: \x7b\n    inner: string;\n  \x7d\n" ++
    "  after: number;\n\x7d\n").toList

def indexed : OneBlock indexedText where
  header := ⟨"A".toList, ['\x7b']⟩
  line := 1
  before := []
  opener := [(⟨"interface A \x7b".toList, 1, none⟩, .opening)]
  body := [(⟨"[key: string]: \x7b".toList, 2, none⟩, .opening),
    (⟨"inner: string".toList, 3, none⟩, .line), (⟨['\x7d'], 4, none⟩, .closing),
    (⟨"after: number".toList, 5, none⟩, .line), (⟨['\x7d'], 6, none⟩, .closing)]
  outer := [(⟨"[key: string]: \x7b".toList, 2, none⟩, .opening),
    (⟨"after: number".toList, 5, none⟩, .line)]
  marked_eq := by decide +kernel
  opens := .sameLine (s := ⟨"interface A \x7b".toList, 1, none⟩) (by decide +kernel)
  closes := by decide +kernel
  single := by decide +kernel

end OneBlock

namespace Source

theorem scan_nested :
    (∀ s, (s, .opening) ∈ OneBlock.nested.outer → MemberLine.startsMember s.text = true) ∧
    (∀ s, (s, .line) ∈ OneBlock.nested.body → Text.endsWith '\x7b' s.text = false) ∧
    scan .reject OneBlock.nestedText =
      ⟨[.inlineObjectMember "A".toList "meta:".toList], .ok [⟨"A".toList, 1, .block
        [⟨"meta: \x7b\x7d".toList, none⟩, ⟨"mode: | 'a' | 'b'".toList, none⟩]⟩]⟩ := by
  have hmember : ∀ p ∈ OneBlock.nested.outer,
      p.2 = .opening → MemberLine.startsMember p.1.text = true := by decide +kernel
  have hline : ∀ p ∈ OneBlock.nested.body,
      p.2 = .line → Text.endsWith '\x7b' p.1.text = false := by decide +kernel
  have hscan := scan_block .reject OneBlock.nested (fun s hs => hmember (s, .opening) hs rfl)
    (fun s hs => hline (s, .line) hs rfl)
  have hwarnings : OneBlock.nested.warnings =
      [.inlineObjectMember "A".toList "meta:".toList] := by decide +kernel
  have hsource : OneBlock.nested.source = ⟨"A".toList, 1, .block
      [⟨"meta: \x7b\x7d".toList, none⟩, ⟨"mode: | 'a' | 'b'".toList, none⟩]⟩ := by decide +kernel
  rw [hwarnings, hsource] at hscan
  exact ⟨fun s hs => hmember (s, .opening) hs rfl, fun s hs => hline (s, .line) hs rfl, hscan⟩

/-- The braces after an index signature are not counted: the block ends before its last member, and
the member of the inner pair is taken for one of the block. -/
theorem scan_indexed :
    (∀ p ∈ OneBlock.indexed.body, p.2 = .line → Text.endsWith '\x7b' p.1.text = false) ∧
    OneBlock.indexed.source = ⟨"A".toList, 1, .block [⟨"after: number".toList, none⟩]⟩ ∧
    (scan .reject OneBlock.indexedText).result =
      .ok [⟨"A".toList, 1, .block [⟨"inner: string".toList, none⟩]⟩] := by
  refine ⟨?_, ?_, ?_⟩
  · decide +kernel
  · decide +kernel
  · decide +kernel

end Source

end InterfaceForms

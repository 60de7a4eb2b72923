import InterfaceForms.Compile
import InterfaceForms.Proofs.LineComments
import InterfaceForms.Proofs.PrintedHeaders
import InterfaceForms.Proofs.References
import InterfaceForms.Proofs.WalkedSources

/-!
# Comments on aliases

The expression of an alias is read with the comments that have become part of its segments. As all
its slashes are found again in the shape, such a comment always changes the shape, or leaves no
alias; with any other comment nothing changes.

* `Declaration.slashes_of_aliasShape?`: the slashes of a text that declares one alias are those of
  its shape.
* `Declaration.aliasShape?_commented`: when the shape is the same with comments as without.
-/

namespace InterfaceForms

/-! ## The slashes of a header -/

theorem Text.slashes_dropWord? {word t rest : Text} (hword : slashes word = 0)
    (h : dropWord? word t = some rest) : slashes rest = slashes t := by
  unfold dropWord? at h
  split at h
  · rename_i c rest hdrop
    split at h
    · rename_i hc
      obtain rfl := Option.some.inj h
      have hne : c ≠ '/' := by
        rintro rfl
        revert hc
        decide
      rw [trimStart, slashes_dropWhile (by decide), ← slashes_cons hne,
        slashes_dropStart? hword hdrop]
    · cases h
  · cases h

namespace Header

theorem slashes_cutName? {t name rest : Text} (h : cutName? t = some (name, rest)) :
    Text.slashes rest = Text.slashes t := by
  cases t with
  | nil => cases h
  | cons c t =>
    simp only [cutName?, Option.ite_none_right_eq_some, Option.some.injEq, Prod.mk.injEq] at h
    obtain ⟨hc, -, rfl⟩ := h
    have hne : c ≠ '/' := by
      rintro rfl
      revert hc
      decide
    rw [Text.slashes_dropWhile (by decide +kernel), Text.slashes_cons hne]

/-- A header has no slashes before what follows the name. -/
theorem slashes_ofLine? {line : Text} {h : Header} (hline : ofLine? line = some h) :
    Text.slashes h.rest = Text.slashes line := by
  have hskip : ∀ word : Text, Text.slashes word = 0 → ∀ t : Text,
      Text.slashes ((Text.dropWord? word t).getD t) = Text.slashes t := by
    intro word hword t
    cases hdrop : Text.dropWord? word t with
    | none => rfl
    | some rest => exact Text.slashes_dropWord? hword hdrop
  simp only [ofLine?, Option.bind_eq_bind, Option.bind_eq_some_iff] at hline
  obtain ⟨t, hword, ⟨name, rest⟩, hname, hrest⟩ := hline
  split at hrest
  · cases hrest
  obtain rfl := Option.some.inj hrest
  obtain ⟨u, hu, hword⟩ : ∃ u, Text.slashes u = Text.slashes line ∧
      (Text.dropWord? "interface".toList u <|> Text.dropWord? "type".toList u) = some t :=
    ⟨_, (hskip _ (by decide) _).trans (hskip _ (by decide) _), hword⟩
  have ht : Text.slashes t = Text.slashes u := by
    cases hfirst : Text.dropWord? "interface".toList u with
    | some rest =>
      rw [hfirst] at hword
      obtain rfl := Option.some.inj hword
      exact Text.slashes_dropWord? (by decide) hfirst
    | none =>
      rw [hfirst] at hword
      exact Text.slashes_dropWord? (by decide) hword
  rw [Text.slashes_trim, Text.trimStart, Text.slashes_dropWhile (by decide), slashes_cutName? hname,
    ht, hu]

theorem slashes_aliasExpr? {h : Header} {expr : Text} (hexpr : h.aliasExpr? = some expr) :
    Text.slashes expr = Text.slashes h.rest := by
  unfold aliasExpr? at hexpr
  split at hexpr
  · cases hexpr
  split at hexpr
  · rename_i rest hrest
    obtain rfl := Option.some.inj hexpr
    rw [hrest, Text.slashes_trim, Text.slashes_cons (by decide)]
  · rename_i rest hrest
    obtain rfl := Option.some.inj hexpr
    rw [hrest, Text.slashes_trim, Text.slashes_cons (by decide)]
  · cases hexpr

/-- A line that goes on with alternatives is no header. -/
theorem ofLine?_of_alternative {t : Text} (h : Text.startsWith '|' t = true) :
    ofLine? t = none := by
  obtain ⟨rest, rfl⟩ := List.head?_eq_some_iff.1 (by simpa [Text.startsWith] using h)
  exact ofLine?_of_sign (n := []) rfl (by decide) (by decide)

end Header

/-! ## The slashes of an alias -/

theorem Text.ne_of_bar {t : Text} (h : startsWith '|' t = true) {c : Char} (hc : c ≠ '|') :
    t ≠ [c] := by
  rintro rfl
  exact hc (by simpa [startsWith] using h)

namespace Section

/-- The expression of an alias after one more line. -/
def continued (expr line : Text) : Text := if expr = [] then line else expr ++ ' ' :: line

theorem slashes_foldl_continued (expr : Text) (lines : List Text) :
    Text.slashes (lines.foldl continued expr) = Text.slashes expr + Text.slashesOf lines := by
  induction lines generalizing expr with
  | nil => rfl
  | cons line lines ih =>
    rw [List.foldl_cons, ih, Text.slashesOf_cons, ← Nat.add_assoc, continued]
    congr 1
    split
    · rename_i hempty
      rw [hempty, Text.slashes_nil, Nat.zero_add]
    · rw [Text.slashes_append, Text.slashes_cons (by decide)]

/-- Lines of alternatives go to the expression. -/
theorem readAlias_bars (owner expr : Text) {segments : List Segment}
    (h : ∀ s ∈ segments, Text.startsWith '|' s.text = true) (rest : List Segment) :
    readAlias owner expr (segments ++ rest) =
      readAlias owner ((segments.map Segment.text).foldl continued expr) rest := by
  induction segments generalizing expr with
  | nil => rfl
  | cons s segments ih =>
    obtain ⟨hs, hrest⟩ := List.forall_mem_cons.1 h
    have hbrace : s.text ≠ ['\x7b'] := Text.ne_of_bar hs (by decide)
    rw [List.cons_append, readAlias]
    simp only [hbrace, hs, decide_false, Bool.false_and, Bool.false_eq_true, if_false,
      Bool.true_or, if_true]
    exact ih (continued expr s.text) hrest

end Section

/-- So the slashes of a section that holds nothing else are in its alias. -/
theorem Section.slashes_of_read {s : Section}
    (hbody : ∀ x ∈ s.body, Text.startsWith '|' x.text = true) {source : Source}
    (h : s.read.result = .ok source) {expr : Text} (halias : source.body = .alias expr) :
    Text.slashes expr =
      Text.slashes s.header.rest + Text.slashesOf (s.body.map Segment.text) := by
  rw [Section.read_eq] at h
  obtain ⟨body, hread, rfl⟩ := Logged.bind_pure_ok.1 h
  obtain rfl : body = .alias expr := halias
  unfold readBody at hread
  split at hread
  · rw [Logged.map_eq] at hread
    generalize (readBlock _ _ _ _).result = lines at hread
    cases lines with
    | error e => cases hread
    | ok lines => cases hread
  · rename_i target htarget
    have hbars := readAlias_bars s.header.name target hbody []
    rw [List.append_nil] at hbars
    rw [hbars] at hread
    cases hread
    rw [slashes_foldl_continued, Header.slashes_aliasExpr? htarget]

namespace Declaration

/-- The shape of an alias is that of its expression. -/
theorem exists_of_ofSource_alias {source : Source} {found : Text} {target : Member}
    (h : ofSource source = .ok ⟨found, .alias target⟩) :
    ∃ expr, source.body = .alias expr ∧ Shape.ofExpr expr = .ok target.shape := by
  rcases ofSource_cases h with ⟨_, _, -, -, ⟨⟩⟩ | ⟨expr, _, halias, hshape, ⟨⟩⟩
  exact ⟨expr, halias, hshape⟩

/-- The shape of the alias `name` in a text, if it declares one. -/
def aliasShape? (options : Options) (name : Text) (t : Text) : Option Shape :=
  match (ofText options t).result with
  | .error _ => none
  | .ok declarations =>
    match find? declarations name with
    | some ⟨_, .alias target⟩ => some target.shape
    | _ => none

variable {options : Options} {name t : Text} {shape : Shape}

theorem aliasShape?_eq_some : aliasShape? options name t = some shape ↔
    ∃ declarations found target, (ofText options t).result = .ok declarations ∧
      find? declarations name = some ⟨found, .alias target⟩ ∧ target.shape = shape := by
  unfold aliasShape?
  cases (ofText options t).result with
  | error e => simp
  | ok declarations =>
    cases hfind : find? declarations name with
    | none => simp [hfind]
    | some d =>
      obtain ⟨found, members | target⟩ := d
      · simp [hfind]
      · simp [hfind]

/-- The slashes of a text that declares one alias are those of its shape. -/
theorem slashes_of_aliasShape?
    (htail : ∀ s ∈ (Segment.cut t).tail, Text.startsWith '|' s.text = true)
    (h : aliasShape? options name t = some shape) :
    shape.slashes = Text.slashesOf ((Segment.cut t).map Segment.text) := by
  obtain ⟨declarations, found, target, hdeclarations, hfind, rfl⟩ := aliasShape?_eq_some.1 h
  obtain ⟨kept, hkept, hsources⟩ := Logged.bind_ok.1 hdeclarations
  obtain ⟨source, hsource, hd⟩ :=
    Except.mem_of_mapM_ok hsources _ (List.mem_of_find?_eq_some hfind)
  obtain ⟨out, hout, rfl, -⟩ := Source.scan_ok.1 hkept
  have hmem := (List.mem_filter.1 hsource).1
  generalize Segment.cut t = segments at hout htail
  cases segments with
  | nil =>
    cases hout
    cases hmem
  | cons s body =>
    have hbody : ∀ x ∈ body, Header.ofLine? x.text = none :=
      fun x hx => Header.ofLine?_of_alternative (htail x hx)
    cases hs : Header.ofLine? s.text with
    | none =>
      have hnone := Section.ofSegments_append (List.forall_mem_cons.2 ⟨hs, hbody⟩) []
      rw [List.append_nil] at hnone
      rw [hnone] at hout
      cases hout
      cases hmem
    | some header =>
      rw [Section.ofSegments_last hs hbody, Source.collect] at hout
      obtain ⟨_, -, hout⟩ := Logged.bind_ok.1 hout
      obtain ⟨read, hread, hout⟩ := Logged.bind_ok.1 hout
      cases hout
      obtain rfl := List.mem_singleton.1 hmem
      obtain ⟨expr, halias, hshape⟩ := exists_of_ofSource_alias hd
      rw [Shape.slashes_ofExpr hshape, Section.slashes_of_read htail hread halias,
        Header.slashes_ofLine? hs, List.map_cons, Text.slashesOf_cons]

variable {lines : List CodeLine}

/-- Comments that become part of no segment change nothing. -/
theorem ofText_commented (hplaced : Cutter.start.Placed lines)
    (hnone : Cutter.start.joined lines = 0) :
    ofText options (CodeLine.commented lines) = ofText options (CodeLine.plain lines) := by
  rw [ofText, ofText, Source.scan, Source.scan, Segment.cut_commented hplaced hnone]

/-- Lines that go on with alternatives do so with comments. -/
theorem tail_commented (hplaced : Cutter.start.Placed lines)
    (htail : ∀ s ∈ (Segment.cut (CodeLine.plain lines)).tail,
      Text.startsWith '|' s.text = true) :
    ∀ s ∈ (Segment.cut (CodeLine.commented lines)).tail, Text.startsWith '|' s.text = true := by
  have hextends := List.forall₂_drop 1 (Segment.grown_commented hplaced).each
  rw [List.drop_one, List.drop_one] at hextends
  intro y hy
  obtain ⟨x, hx, h⟩ := exists_of_forall₂ hextends y hy
  exact h.startsWith (htail x hx)

/-- The shape of an alias in a text of its own is another with each comment that becomes part of a
segment, as that adds slashes. -/
theorem joined_eq_zero_of_aliasShape? (hplaced : Cutter.start.Placed lines)
    (htail : ∀ s ∈ (Segment.cut (CodeLine.plain lines)).tail,
      Text.startsWith '|' s.text = true)
    (h : aliasShape? options name (CodeLine.plain lines) = some shape)
    (hsame : aliasShape? options name (CodeLine.commented lines) = some shape) :
    Cutter.start.joined lines = 0 := by
  have hslashes := (Segment.grown_commented hplaced).slashes
  rw [← slashes_of_aliasShape? htail h,
    ← slashes_of_aliasShape? (tail_commented hplaced htail) hsame] at hslashes
  omega

/-- Comments at the ends of lines change no alias, and nothing that is compiled, if none of them
becomes part of a segment. In an alias on a line or on several, which go on with alternatives, this
is the only case in which the shape stays the same. -/
theorem aliasShape?_commented (hplaced : Cutter.start.Placed lines) :
    (Cutter.start.joined lines = 0 → ∀ options : Options,
      (∀ name, aliasShape? options name (CodeLine.commented lines) =
        aliasShape? options name (CodeLine.plain lines)) ∧
      ∀ root, compileText options root (CodeLine.commented lines) =
        compileText options root (CodeLine.plain lines)) ∧
    ((∀ s ∈ (Segment.cut (CodeLine.plain lines)).tail, Text.startsWith '|' s.text = true) →
      ∀ (options : Options) (name : Text) (shape : Shape),
        aliasShape? options name (CodeLine.plain lines) = some shape →
        (aliasShape? options name (CodeLine.commented lines) = some shape ↔
          Cutter.start.joined lines = 0)) := by
  have hnone : Cutter.start.joined lines = 0 → ∀ options name,
      aliasShape? options name (CodeLine.commented lines) =
        aliasShape? options name (CodeLine.plain lines) := by
    intro hnone options name
    rw [aliasShape?, aliasShape?, ofText_commented hplaced hnone]
  refine ⟨fun hjoined options => ⟨hnone hjoined options, fun root => ?_⟩, ?_⟩
  · rw [compileText, compileText, ofText_commented hplaced hjoined]
  · intro htail options name shape h
    constructor
    · exact joined_eq_zero_of_aliasShape? hplaced htail h
    · intro hjoined
      rw [hnone hjoined]
      exact h

/-- An alias on three lines, with comments that become part of no segment. -/
def keyLines : List CodeLine :=
  [⟨"type Key = string".toList, none⟩, ⟨"  | Record<string, ".toList, some " by name".toList⟩,
    ⟨"    number>;".toList, some "/".toList⟩]

theorem aliasShape?_keyLines : Cutter.start.Placed keyLines ∧
    Cutter.start.joined keyLines = 0 ∧
    (∀ s ∈ (Segment.cut (CodeLine.plain keyLines)).tail, Text.startsWith '|' s.text = true) ∧
    aliasShape? {} "Key".toList (CodeLine.commented keyLines) =
      some (.union [.primitive .string, .reference "Record<string,      number>".toList]) := by
  have hplaced : Cutter.start.Placed keyLines := by decide +kernel
  have hjoined : Cutter.start.joined keyLines = 0 := by decide +kernel
  have htail : ∀ s ∈ (Segment.cut (CodeLine.plain keyLines)).tail,
      Text.startsWith '|' s.text = true := by decide +kernel
  exact ⟨hplaced, hjoined, htail,
    ((aliasShape?_commented hplaced).2 htail {} "Key".toList _ (by decide +kernel)).2 hjoined⟩

/-- An alias with a comment that says something. -/
def modeLines : List CodeLine := [⟨"type Mode = 'fast' | 'slow' ".toList, some " speed".toList⟩]

theorem aliasShape?_modeLines : Cutter.start.Placed modeLines ∧
    (Segment.cut (CodeLine.plain modeLines)).tail = [] ∧
    aliasShape? {} "Mode".toList (CodeLine.plain modeLines) =
      some (.enum ["fast".toList, "slow".toList]) ∧
    aliasShape? {} "Mode".toList (CodeLine.commented modeLines) =
      some (.union [.literal "fast".toList, .reference "'slow'  // speed".toList]) := by
  decide +kernel

end Declaration

end InterfaceForms

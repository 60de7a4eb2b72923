import InterfaceForms.Proofs.JoinedLines
import InterfaceForms.Proofs.Locality
import InterfaceForms.Proofs.Related
import InterfaceForms.Proofs.WalkedParts
import Mathlib.Data.List.Perm.Basic

/-!
# The order of texts

Of the segments of a text, what is compiled depends on what they say, and not on their lines. So
texts that are joined are compiled like their segments one after another; where no name stands in
the headers of two of them and none goes on with a declaration of another, their order is only the
order of the declarations, which does not matter.

* `Source.collect_related`, `Source.collect_congr`: the sources depend on what the sections give,
  and so on what the segments say.
* `Declaration.compileText_of_perm`: the parts of a text in another order.
* `Declaration.compileText_joined`: the texts that are joined in another order.
-/

namespace InterfaceForms

/-! ## What does not depend on lines -/

namespace Logged

/-- Both results are values, related by `r`, or both are the same failure. -/
def results : Lifting where
  Rel r x y := Agree r x.result y.result
  pure h := .ok h
  fail _ := .error
  bind := by
    intro α β γ δ r q x y f g h hfg
    rw [bind_result, bind_result]
    generalize x.result = a, y.result = b at h
    cases h with
    | error => exact .error
    | ok hab => exact hfg _ _ hab

theorem results_refl {α : Type} (x : Logged α) : results.Rel Eq x x := by
  show Agree Eq x.result x.result
  cases x.result with
  | error e => exact .error
  | ok a => exact .ok rfl

end Logged

namespace Section

variable {s s' : Segment} {body body' : List Segment}

/-- What is read of a block depends on what its segments say. -/
theorem readBlock_congr (owner : Text) (nested : Nat) (lines : List MemberLine)
    (h : body.map Segment.content = body'.map Segment.content) :
    readBlock owner nested lines body = readBlock owner nested lines body' := by
  induction body generalizing nested lines body' with
  | nil =>
    obtain rfl := List.map_eq_nil_iff.1 h.symm
    rfl
  | cons s body ih =>
    obtain ⟨⟨text, line, doc⟩, rest, rfl, hs, hrest⟩ := List.map_eq_cons_iff.1 h.symm
    obtain ⟨_, _, _⟩ := s
    obtain ⟨rfl, rfl⟩ := Prod.mk.inj hs
    have hrest' : ∀ nested lines,
        readBlock owner nested lines body = readBlock owner nested lines rest :=
      fun nested lines => ih nested lines hrest.symm
    simp only [readBlock, hrest']

theorem readAlias_congr (owner expr : Text)
    (h : body.map Segment.content = body'.map Segment.content) :
    readAlias owner expr body = readAlias owner expr body' := by
  induction body generalizing expr body' with
  | nil =>
    obtain rfl := List.map_eq_nil_iff.1 h.symm
    rfl
  | cons s body ih =>
    obtain ⟨⟨text, line, doc⟩, rest, rfl, hs, hrest⟩ := List.map_eq_cons_iff.1 h.symm
    obtain ⟨_, _, _⟩ := s
    obtain ⟨rfl, rfl⟩ := Prod.mk.inj hs
    simp only [readAlias, readBlock_congr owner 0 [] hrest.symm, ih _ hrest.symm]

theorem readBody_congr {s s' : Section} (h : s.content = s'.content) :
    s.readBody = s'.readBody := by
  obtain ⟨hheader, hbody⟩ := Prod.mk.inj h
  unfold readBody
  rw [hheader]
  cases s'.header.aliasExpr? with
  | none => simp only [readBlock_congr _ 0 [] hbody]
  | some expr => simp only [readAlias_congr _ expr hbody]

/-- A section gives the same source as one that says the same, but for the line. -/
theorem read_congr {s s' : Section} (h : s.content = s'.content) :
    Logged.results.Rel (fun a b => a.content = b.content) s.read s'.read := by
  have hheader : s.header = s'.header := congrArg Prod.fst h
  rw [read_eq, read_eq, readBody_congr h, hheader]
  refine Logged.results.bind_pure (Logged.results_refl _) ?_
  rintro body _ rfl
  rfl

theorem ofSegments_congr {segments segments' : List Segment}
    (h : segments.map Segment.content = segments'.map Segment.content) :
    (ofSegments segments).map content = (ofSegments segments').map content := by
  induction segments generalizing segments' with
  | nil =>
    obtain rfl := List.map_eq_nil_iff.1 h.symm
    rfl
  | cons s segments ih =>
    obtain ⟨s', rest, rfl, hs, hrest⟩ := List.map_eq_cons_iff.1 h.symm
    have htext : s'.text = s.text := congrArg Prod.fst hs
    have htake : ∀ l : List Segment, (l.takeWhile fun s => (Header.ofLine? s.text).isNone).map
        Segment.content = (l.map Segment.content).takeWhile
          fun c => (Header.ofLine? c.1).isNone := by
      intro l
      rw [List.takeWhile_map]
      rfl
    rw [ofSegments_eq, ofSegments_eq, htext]
    cases Header.ofLine? s.text with
    | none => exact ih hrest.symm
    | some header =>
      dsimp only
      rw [List.map_cons, List.map_cons, ih hrest.symm, content, content, htake, htake, hrest]

/-- The sections have headers of the same name and give related sources. -/
structure Related (R : Source → Source → Prop) (s s' : Section) : Prop where
  name : s.header.name = s'.header.name
  read : Logged.results.Rel R s.read s'.read

end Section

namespace Source

section Related

variable {R : Source → Source → Prop} (hname : ∀ a b, R a b → a.name = b.name)
include hname

/-- A source goes where one goes that has its name. -/
theorem put_related {source source' : Source} (h : R source source') {found found' : List Source}
    (hfound : List.Forall₂ R found found') :
    List.Forall₂ R (put source found) (put source' found') := by
  induction hfound with
  | nil => exact .cons h .nil
  | cons hs hrest ih =>
    rw [put, put, hname _ _ hs, hname _ _ h]
    split
    · exact .cons h hrest
    · exact .cons hs ih

theorem checkDuplicate_related (policy : DuplicatePolicy) {s s' : Section}
    (hs : s.header.name = s'.header.name) {found found' : List Source}
    (hfound : List.Forall₂ R found found') :
    Logged.results.Rel (fun _ _ => True) (checkDuplicate policy found s)
      (checkDuplicate policy found' s') := by
  have hfind : (found.find? (·.name = s'.header.name)).isSome =
      (found'.find? (·.name = s'.header.name)).isSome := by
    induction hfound with
    | nil => rfl
    | cons hab _ ih =>
      rw [List.find?_cons, List.find?_cons, hname _ _ hab]
      split
      · rfl
      · exact ih
  unfold checkDuplicate
  rw [hs]
  cases hold : found.find? (·.name = s'.header.name) with
  | none =>
    rw [hold] at hfind
    rw [Option.not_isSome_iff_eq_none.1 (Bool.eq_false_iff.1 hfind.symm)]
    exact Logged.results.pure trivial
  | some earlier =>
    rw [hold] at hfind
    obtain ⟨earlier', hold'⟩ := Option.isSome_iff_exists.1 hfind.symm
    rw [hold']
    cases policy with
    | reject => exact Logged.results.fail _
    | lastWins => exact .ok trivial

/-- Sections that give related sources, one after another, give related lists of them. -/
theorem collect_related (policy : DuplicatePolicy) {sections sections' : List Section}
    (h : List.Forall₂ (Section.Related R) sections sections')
    {found found' : List Source} (hfound : List.Forall₂ R found found') :
    Logged.results.Rel (List.Forall₂ R) (collect policy found sections)
      (collect policy found' sections') := by
  induction h generalizing found found' with
  | nil => exact Logged.results.pure hfound
  | cons hs _ ih =>
    rw [collect, collect]
    refine Logged.results.bind (checkDuplicate_related hname policy hs.name hfound) fun _ _ _ => ?_
    exact Logged.results.bind hs.read fun source source' hsource =>
      ih (put_related hname hsource hfound)

/-- So do the sources of texts, when blank aliases are related to such. -/
theorem scan_related (hblank : ∀ a b, R a b → a.isBlankAlias = b.isBlankAlias)
    (policy : DuplicatePolicy) {t u : Text}
    (h : List.Forall₂ (Section.Related R) (Section.ofSegments (Segment.cut t))
      (Section.ofSegments (Segment.cut u))) :
    Logged.results.Rel (List.Forall₂ R) (scan policy t) (scan policy u) := by
  refine Logged.results.bind (collect_related hname policy h .nil) fun found found' hfound => ?_
  have hkept : List.Forall₂ R (found.filter (!·.isBlankAlias)) (found'.filter (!·.isBlankAlias)) :=
    List.rel_filter (fun a b hab => by simp [hblank a b hab]) hfound
  have hdrop : Logged.results.Rel (List.Forall₂ R) (dropBlankAliases found)
      (dropBlankAliases found') := .ok hkept
  refine Logged.results.bind hdrop fun kept kept' hsame => ?_
  cases hsame with
  | nil => exact Logged.results.fail _
  | cons hs hrest => exact Logged.results.pure (.cons hs hrest)

end Related

theorem sections_congr {segments segments' : List Segment}
    (h : segments.map Segment.content = segments'.map Segment.content) :
    List.Forall₂ (Section.Related fun a b => a.content = b.content)
      (Section.ofSegments segments) (Section.ofSegments segments') := by
  have hsections := forall₂_eq_on.2 (Section.ofSegments_congr h)
  exact hsections.imp fun _ _ hs => ⟨congrArg (·.1.name) hs, Section.read_congr hs⟩

theorem name_of_content (a b : Source) (h : a.content = b.content) : a.name = b.name :=
  congrArg Prod.fst h

theorem collect_congr (policy : DuplicatePolicy) {segments segments' : List Segment}
    (h : segments.map Segment.content = segments'.map Segment.content) :
    Logged.results.Rel (fun a b => a.map content = b.map content)
      (collect policy [] (Section.ofSegments segments))
      (collect policy [] (Section.ofSegments segments')) := by
  have hagree := collect_related name_of_content policy (sections_congr h) .nil
  exact Logged.Agree.imp hagree fun _ _ => forall₂_eq_on.1

end Source

/-! ## What is said in a text -/

namespace Source

variable {policy : DuplicatePolicy} {segments segments' : List Segment}
  {cs : List (Text × SourceBody)}

/-- The sources of the segments say `cs`. -/
def Say (policy : DuplicatePolicy) (segments : List Segment) (cs : List (Text × SourceBody)) :
    Prop :=
  ∃ out, (collect policy [] (Section.ofSegments segments)).result = .ok out ∧ out.map content = cs

theorem say_of_content (h : segments.map Segment.content = segments'.map Segment.content)
    (hsay : Say policy segments cs) : Say policy segments' cs := by
  obtain ⟨out, hout, rfl⟩ := hsay
  have hagree := collect_congr policy h
  change Logged.Agree _ _ _ at hagree
  rw [hout] at hagree
  generalize hout' : (collect policy [] (Section.ofSegments segments')).result = out' at hagree
  cases hagree with
  | ok hcontent => exact ⟨_, hout', hcontent.symm⟩

/-- The sources have distinct names. -/
theorem Say.nodup (h : Say policy segments cs) : (cs.map Prod.fst).Nodup := by
  obtain ⟨out, hout, rfl⟩ := h
  obtain ⟨sources, -, hrecords⟩ := collect_ok hout
  have hkeys : (out.map content).map Prod.fst = Entries.keys (records out) := by
    simp only [records, Entries.keys, List.map_map]
    rfl
  rw [hkeys, hrecords]
  exact Entries.nodup_keys_ofList _

/-- Parts in another order say the same in another order. -/
theorem Say.perm {parts parts' : List (List Segment)} (h : Say policy parts.flatten cs)
    (hseparate : Walk.Separate parts) (hperm : parts.Perm parts') :
    ∃ cs', cs.Perm cs' ∧ Say policy parts'.flatten cs' := by
  obtain ⟨out, hout, rfl⟩ := h
  rw [collect_flatten hseparate] at hout
  obtain ⟨outs, houts, hflat⟩ := Logged.bind_pure_ok.1 hout
  obtain rfl := hflat
  obtain ⟨outs', houts', hperm'⟩ := List.perm_comp_forall₂ hperm.symm (Logged.mapM_ok.1 houts)
  refine ⟨outs'.flatten.map content, ?_, outs'.flatten, ?_, rfl⟩
  · exact (hperm'.symm.flatten).map content
  · rw [collect_flatten (hseparate.perm hperm)]
    exact Logged.bind_pure_ok.2 ⟨outs', Logged.mapM_ok.2 houts', rfl⟩

/-- The source that says `c`, on no line. -/
def ofContent (c : Text × SourceBody) : Source := ⟨c.1, 0, c.2⟩

/-- What is said in the sources that are kept. -/
def kept (cs : List (Text × SourceBody)) : List (Text × SourceBody) :=
  cs.filter fun c => !(ofContent c).isBlankAlias

theorem kept_content (found : List Source) :
    kept (found.map content) = (found.filter (!·.isBlankAlias)).map content := by
  rw [kept, List.filter_map]
  rfl

end Source

/-! ## Declarations in another order -/

namespace Declaration

variable {options : Options} {root : Text} {roots : List Schema} {t t' : Text}

theorem compileText_ok :
    (compileText options root t).result = .ok roots ↔
      ∃ cs declarations, Source.Say options.duplicates (Segment.cut t) cs ∧
        Source.kept cs ≠ [] ∧
        List.Forall₂ (fun c d => ofSource (.ofContent c) = .ok d) (Source.kept cs) declarations ∧
        (compile declarations options root).result = .ok roots := by
  unfold compileText ofText
  simp only [Logged.bind_ok, Source.scan_ok]
  constructor
  · rintro ⟨declarations, ⟨_, ⟨out, hout, rfl, hne⟩, hsources⟩, hroots⟩
    refine ⟨out.map Source.content, declarations, ⟨out, hout, rfl⟩, ?_, ?_, hroots⟩
    · rw [Source.kept_content]
      exact fun h => hne (List.map_eq_nil_iff.1 h)
    · rw [Source.kept_content, List.forall₂_map_left_iff]
      exact Except.mapM_ok.1 hsources
  · rintro ⟨_, declarations, ⟨out, hout, rfl⟩, hne, hsources, hroots⟩
    rw [Source.kept_content] at hne hsources
    refine ⟨declarations, ⟨_, ⟨out, hout, rfl, ?_⟩, ?_⟩, hroots⟩
    · exact fun h => hne (List.map_eq_nil_iff.2 h)
    · exact Except.mapM_ok.2 (List.forall₂_map_left_iff.1 hsources)

theorem name_ofSource {source : Source} {d : Declaration} (h : ofSource source = .ok d) :
    d.name = source.name := by
  rcases ofSource_cases h with ⟨_, _, -, -, rfl⟩ | ⟨_, _, -, -, rfl⟩
  · rfl
  · rfl

theorem map_name_of_forall₂ {cs : List (Text × SourceBody)} {declarations : List Declaration}
    (h : List.Forall₂ (fun c d => ofSource (.ofContent c) = .ok d) cs declarations) :
    declarations.map (·.name) = cs.map Prod.fst := by
  induction h with
  | nil => rfl
  | cons hd _ ih => rw [List.map_cons, List.map_cons, ih, name_ofSource hd, Source.ofContent]

/-- The parts of a text may stand in another order. -/
theorem compileText_of_perm {parts parts' : List (List Segment)} (hseparate : Walk.Separate parts)
    (hperm : parts.Perm parts')
    (ht : (Segment.cut t).map Segment.content = parts.flatten.map Segment.content)
    (ht' : (Segment.cut t').map Segment.content = parts'.flatten.map Segment.content)
    (h : (compileText options root t).result = .ok roots) :
    (compileText options root t').result = .ok roots := by
  obtain ⟨cs, declarations, hsay, hne, hsources, hroots⟩ := compileText_ok.1 h
  obtain ⟨cs', hcs, hsay'⟩ := (Source.say_of_content ht hsay).perm hseparate hperm
  have hkept : (Source.kept cs).Perm (Source.kept cs') := hcs.filter _
  obtain ⟨declarations', hsources', hdeclarations⟩ := List.perm_comp_forall₂ hkept.symm hsources
  have hnodup : (declarations.map (·.name)).Nodup := by
    rw [map_name_of_forall₂ hsources]
    exact hsay.nodup.sublist (List.filter_sublist.map _)
  refine compileText_ok.2 ⟨cs', declarations', Source.say_of_content ht'.symm hsay', ?_, hsources',
    ?_⟩
  · intro hnil
    rw [hnil] at hkept
    exact hne hkept.eq_nil
  · rw [← compile_perm hnodup hdeclarations.symm]
    exact hroots

/-- Texts that are joined may stand in another order where none is left open and they have nothing
to do with one another, whether newlines stand between them or after each. -/
theorem compileText_joined {texts texts' : List Text} (hperm : texts.Perm texts')
    (hclosed : ∀ t ∈ texts, t.Closed) (hseparate : Walk.Separate (texts.map Segment.cut))
    (options : Options) (root : Text) (roots : List Schema) :
    ((compileText options root (Text.joinWith ['\n'] texts)).result = .ok roots ↔
      (compileText options root (Text.joinWith ['\n'] texts')).result = .ok roots) ∧
    ((compileText options root (texts.map (· ++ ['\n'])).flatten).result = .ok roots ↔
      (compileText options root (texts'.map (· ++ ['\n'])).flatten).result = .ok roots) := by
  have hclosed' : ∀ t ∈ texts', t.Closed := fun t ht => hclosed t (hperm.mem_iff.2 ht)
  have hparts := hperm.map Segment.cut
  have hsame : ∀ {t t' : Text},
      (Segment.cut t).map Segment.content = (texts.flatMap Segment.cut).map Segment.content →
      (Segment.cut t').map Segment.content = (texts'.flatMap Segment.cut).map Segment.content →
      ((compileText options root t).result = .ok roots ↔
        (compileText options root t').result = .ok roots) := by
    intro t t' ht ht'
    rw [List.flatMap_def] at ht ht'
    constructor
    · exact compileText_of_perm hseparate hparts ht ht'
    · exact compileText_of_perm (hseparate.perm hparts) hparts.symm ht' ht
  exact ⟨hsame (Segment.cut_joinWith hclosed) (Segment.cut_joinWith hclosed'),
    hsame (Segment.cut_lines hclosed) (Segment.cut_lines hclosed')⟩

/-- A form in a text of its own, which ends inside the block. -/
def formText : Text := "/** What is sent. */\ninterface Form \x7b\n  mode: Mode; // how".toList

def modeText : Text := "type Mode = 'fast' | 'slow' //".toList

theorem compileText_swapped :
    (∀ t ∈ [formText, modeText], t.Closed) ∧
    Walk.Separate ([formText, modeText].map Segment.cut) ∧
    ∃ roots : List Schema, roots.length = 1 ∧
      (compileText {} "Form".toList (Text.joinWith ['\n'] [formText, modeText])).result =
        .ok roots ∧
      (compileText {} "Form".toList (Text.joinWith ['\n'] [modeText, formText])).result =
        .ok roots := by
  have hclosed : ∀ t ∈ [formText, modeText], t.Closed := by
    rw [List.forall_mem_cons, List.forall_mem_singleton]
    exact ⟨⟨by decide +kernel, by decide +kernel, by decide +kernel, by decide +kernel⟩,
      ⟨by decide +kernel, by decide +kernel, by decide +kernel, by decide +kernel⟩⟩
  have hnames : Segment.headerNames (Segment.cut formText) = ["Form".toList] ∧
      Segment.headerNames (Segment.cut modeText) = ["Mode".toList] := by decide +kernel
  have hseparate : Walk.Separate ([formText, modeText].map Segment.cut) := by
    refine ⟨?_, .inr (by decide +kernel)⟩
    simp [hnames.1, hnames.2]
  have hsome : ((compileText {} "Form".toList
      (Text.joinWith ['\n'] [formText, modeText])).result.toOption.map List.length) =
        some 1 := by decide +kernel
  refine ⟨hclosed, hseparate, ?_⟩
  cases hroots : (compileText {} "Form".toList
      (Text.joinWith ['\n'] [formText, modeText])).result with
  | error e =>
    rw [hroots] at hsome
    cases hsome
  | ok roots =>
    rw [hroots] at hsome
    refine ⟨roots, Option.some.inj hsome, rfl, ?_⟩
    exact (compileText_joined (List.Perm.swap modeText formText []) hclosed hseparate {}
      "Form".toList roots).1.1 hroots

end Declaration

end InterfaceForms

import InterfaceForms.Proofs.Duplicates
import InterfaceForms.Proofs.References

/-!
# Lines at the end of a text

Lines behind a text go on with its last section or make a section of their own. A member at the end
of the block that the text leaves open stands behind the members of this block, and a section with
a new name stands behind all declarations. Nothing else changes, even where the text is refused.

* `Declaration.ofText_addLine`: the declarations with one more line in the last block.
* `Declaration.ofText_addSection`: the declarations with one more section.
-/

namespace InterfaceForms

/-! ## Lists of readings -/

theorem Except.mem_of_mapM_error {ε α β : Type} {f : α → Except ε β} {l : List α} {e : ε}
    (h : l.mapM f = .error e) : ∃ a ∈ l, f a = .error e := by
  induction l with
  | nil => cases h
  | cons a l ih =>
    rw [List.mapM_cons] at h
    cases ha : f a with
    | error e' =>
      rw [ha] at h
      cases h
      exact ⟨a, List.mem_cons_self, ha⟩
    | ok b =>
      cases hl : l.mapM f with
      | error e' =>
        rw [ha, hl] at h
        cases h
        obtain ⟨a', ha', h'⟩ := ih hl
        exact ⟨a', List.mem_cons_of_mem a ha', h'⟩
      | ok bs =>
        rw [ha, hl] at h
        cases h

/-- A change that each reading commutes with commutes with the reading of a list. -/
theorem Except.mapM_map_of_commutes {ε α β : Type} {f : α → Except ε β} {g : α → α} {h : β → β}
    (hcomm : ∀ a, f (g a) = (f a).map h) (l : List α) :
    (l.map g).mapM f = (l.mapM f).map (List.map h) := by
  induction l with
  | nil => rfl
  | cons a l ih =>
    rw [List.map_cons, List.mapM_cons, List.mapM_cons, ih, hcomm]
    cases f a with
    | error e => rfl
    | ok b =>
      cases l.mapM f with
      | error e => rfl
      | ok bs => rfl

/-! ## What is refused -/

theorem Member.ofCode_error {code : Text} {description : Option Text} {e : ParseError}
    (h : ofCode code description = .error e) : ∃ expr, e = .malformedRecord expr := by
  unfold ofCode at h
  split at h
  · cases h
  rename_i left right _
  dsimp only at h
  split at h
  · cases h
  cases hshape : Shape.ofExpr (rawTypeOf right) with
  | error e' =>
    rw [hshape] at h
    cases h
    exact Shape.ofExpr_error hshape
  | ok shape =>
    rw [hshape] at h
    cases h

theorem MemberLine.member?_error {line : MemberLine} {e : ParseError}
    (h : line.member? = .error e) : ∃ expr, e = .malformedRecord expr := by
  unfold member? at h
  cases hline : Member.ofLine line.text with
  | error e' =>
    rw [hline] at h
    cases h
    exact Member.ofCode_error hline
  | ok m =>
    rw [hline] at h
    cases h

namespace Declaration

theorem ofSource_error {source : Source} {e : ParseError} (h : ofSource source = .error e) :
    ∃ expr, e = .malformedRecord expr := by
  obtain ⟨name, line, lines | expr⟩ := source
  · cases hlines : lines.mapM MemberLine.member? with
    | error e' =>
      simp only [ofSource, hlines] at h
      cases h
      obtain ⟨line, -, hline⟩ := Except.mem_of_mapM_error hlines
      exact MemberLine.member?_error hline
    | ok members =>
      simp only [ofSource, hlines] at h
      cases h
  · cases hshape : Shape.ofExpr expr with
    | error e' =>
      simp only [ofSource, Member.ofAlias, hshape] at h
      cases h
      exact Shape.ofExpr_error hshape
    | ok shape =>
      simp only [ofSource, Member.ofAlias, hshape] at h
      cases h

end Declaration

namespace Source

theorem collect_error {policy : DuplicatePolicy} {found : List Source} {sections : List Section}
    {e : ParseError} (h : (collect policy found sections).result = .error e) :
    ∃ name, e = .duplicateDeclaration name := by
  induction sections generalizing found with
  | nil => cases h
  | cons s sections ih =>
    rw [collect, Logged.bind_error] at h
    rcases h with h | ⟨_, -, h⟩
    · unfold checkDuplicate at h
      split at h
      · cases h
      · split at h
        · cases h
          exact ⟨_, rfl⟩
        · cases h
    · rw [Logged.bind_error] at h
      rcases h with h | ⟨source, -, h⟩
      · obtain ⟨source, hread⟩ := s.read_succeeds
        rw [hread] at h
        cases h
      · exact ih h

end Source

/-! ## The declarations of the sources found -/

namespace Declaration

/-- The declarations of the sources found in a text, of which there must be one. -/
def ofFound (found : List Source) : Except ParseError (List Declaration) :=
  if found.filter (!·.isBlankAlias) = [] then .error .noDeclarations
  else (found.filter (!·.isBlankAlias)).mapM ofSource

theorem ofText_result (options : Options) (t : Text) :
    (ofText options t).result =
      (Source.collect options.duplicates [] (Section.ofSegments (Segment.cut t))).result >>=
        ofFound := by
  rw [ofText, Logged.bind_result, Source.scan, Logged.bind_result]
  cases (Source.collect options.duplicates [] (Section.ofSegments (Segment.cut t))).result with
  | error e => rfl
  | ok found =>
    change ((Source.dropBlankAliases found >>= fun kept =>
      if kept = [] then Logged.fail .noDeclarations else return kept).result >>= fun sources =>
        (Logged.ofExcept (sources.mapM ofSource)).result) = ofFound found
    rw [Logged.bind_result]
    change ((if found.filter (!·.isBlankAlias) = [] then Logged.fail .noDeclarations
      else return found.filter (!·.isBlankAlias) : Logged (List Source)).result >>= fun sources =>
        (Logged.ofExcept (sources.mapM ofSource)).result) = ofFound found
    split
    · rename_i hnone
      rw [ofFound, if_pos hnone]
      rfl
    · rename_i hsome
      rw [ofFound, if_neg hsome]
      rfl

/-- The declarations with one more, where those before it are not refused. -/
def addTo (d : Declaration) : Except ParseError (List Declaration) →
    Except ParseError (List Declaration)
  | .error .noDeclarations => .ok [d]
  | .error e => .error e
  | .ok declarations => .ok (declarations ++ [d])

theorem ofFound_concat {found : List Source} {source : Source} (hblank : source.isBlankAlias = false)
    {d : Declaration} (hd : ofSource source = .ok d) :
    ofFound (found ++ [source]) = addTo d (ofFound found) := by
  have hkept : (found ++ [source]).filter (!·.isBlankAlias) =
      found.filter (!·.isBlankAlias) ++ [source] := by
    simp [hblank]
  unfold ofFound
  simp only [hkept]
  rw [if_neg (by simp), List.mapM_append]
  split
  · rename_i hnone
    simp only [hnone, List.mapM_cons, List.mapM_nil, hd]
    rfl
  · cases hall : (found.filter (!·.isBlankAlias)).mapM ofSource with
    | error e =>
      obtain ⟨s, -, hs⟩ := Except.mem_of_mapM_error hall
      obtain ⟨expr, rfl⟩ := ofSource_error hs
      rfl
    | ok declarations =>
      simp only [List.mapM_cons, List.mapM_nil, hd]
      rfl

end Declaration

/-! ## One more section -/

theorem Source.collect_singleton (policy : DuplicatePolicy) (found : List Source) (s : Section) :
    (collect policy found [s]).result =
      (checkDuplicate policy found s).result >>= fun _ => s.read.result.map (put · found) := by
  rw [collect, Logged.bind_result]
  refine congrArg _ (funext fun _ => ?_)
  rw [Logged.bind_result]
  cases s.read.result with
  | error e => rfl
  | ok source => rfl

/-- A section with a new name is found last. -/
theorem Source.collect_concat_of_new {policy : DuplicatePolicy} {sections : List Section}
    {s : Section} (hnew : s.header.name ∉ sections.map (·.header.name)) {source : Source}
    (hread : s.read.result = .ok source) :
    (collect policy [] (sections ++ [s])).result =
      (collect policy [] sections).result.map (· ++ [source]) := by
  rw [collect_append, Logged.bind_result]
  cases hfound : (collect policy [] sections).result with
  | error e => rfl
  | ok found =>
    have hnew' : ∀ other ∈ found, other.name ≠ s.header.name := by
      intro other hother heq
      have hmem : s.header.name ∈ found.map (·.name) := heq ▸ List.mem_map_of_mem hother
      rw [names_of_collect hfound, List.mem_eraseDups] at hmem
      exact hnew hmem
    have hput : put source found = found ++ [source] :=
      put_of_new fun other hother => by
        rw [Section.name_of_read hread]
        exact hnew' other hother
    change (collect policy found [s]).result = .ok (found ++ [source])
    rw [collect_singleton, checkDuplicate_of_new hnew', hread, ← hput]
    rfl

/-- A section with a new name gives one more declaration. -/
theorem Declaration.ofText_addSection (options : Options) {t t' : Text} {s : Section}
    (hcut : Section.ofSegments (Segment.cut t') = Section.ofSegments (Segment.cut t) ++ [s])
    (hnew : s.header.name ∉ Segment.headerNames (Segment.cut t)) {source : Source}
    (hread : s.read.result = .ok source) (hblank : source.isBlankAlias = false)
    {d : Declaration} (hd : ofSource source = .ok d) :
    (ofText options t').result = addTo d (ofText options t).result := by
  rw [← Section.map_name_ofSegments] at hnew
  rw [ofText_result, ofText_result, hcut, Source.collect_concat_of_new hnew hread]
  cases hfound : (Source.collect options.duplicates []
      (Section.ofSegments (Segment.cut t))).result with
  | error e =>
    obtain ⟨name, rfl⟩ := Source.collect_error hfound
    rfl
  | ok found => exact ofFound_concat hblank hd

/-! ## One more line -/

/-- The source with one more line if it is the block of `owner`. -/
def Source.addLine (owner : Text) (line : MemberLine) (s : Source) : Source :=
  match s.body with
  | .block lines => if s.name = owner then { s with body := .block (lines ++ [line]) } else s
  | .alias _ => s

/-- The declaration with one more member if it is the block of `owner`. -/
def Declaration.addMember (owner : Text) (m : Member) (d : Declaration) : Declaration :=
  match d.body with
  | .block members => if d.name = owner then { d with body := .block (members ++ [m]) } else d
  | .alias _ => d

namespace Source

variable {owner : Text} {line : MemberLine}

theorem addLine_of_ne {s : Source} (h : s.name ≠ owner) : s.addLine owner line = s := by
  unfold addLine
  split
  · rw [if_neg h]
  · rfl

theorem name_addLine (s : Source) : (s.addLine owner line).name = s.name := by
  unfold addLine
  split
  · split
    · rfl
    · rfl
  · rfl

theorem isBlankAlias_addLine (s : Source) :
    (s.addLine owner line).isBlankAlias = s.isBlankAlias := by
  obtain ⟨name, number, lines | expr⟩ := s
  · unfold addLine
    dsimp only
    split
    · rfl
    · rfl
  · rfl

theorem ofSource_addLine {m : Member} (hm : line.member? = .ok (some m)) (s : Source) :
    Declaration.ofSource (s.addLine owner line) =
      (Declaration.ofSource s).map (Declaration.addMember owner m) := by
  obtain ⟨name, number, lines | expr⟩ := s
  · by_cases hname : name = owner
    · simp only [addLine, if_pos hname, Declaration.ofSource, List.mapM_append, List.mapM_cons,
        List.mapM_nil, hm]
      cases lines.mapM MemberLine.member? with
      | error e => rfl
      | ok members =>
        change Except.ok _ = Except.ok _
        simp [Declaration.addMember, hname]
    · have hother : (⟨name, number, .block lines⟩ : Source).addLine owner line =
          ⟨name, number, .block lines⟩ := addLine_of_ne hname
      rw [hother]
      simp only [Declaration.ofSource]
      cases lines.mapM MemberLine.member? with
      | error e => rfl
      | ok members =>
        change Except.ok _ = Except.ok _
        simp [Declaration.addMember, hname]
  · change Declaration.ofSource ⟨name, number, .alias expr⟩ = _
    simp only [Declaration.ofSource]
    cases Member.ofAlias expr with
    | error e => rfl
    | ok target => rfl

/-- Of sources with different names only the one put there gets the line. -/
theorem put_addLine {found : List Source} (hnodup : (found.map (·.name)).Nodup) {s : Source}
    (hs : s.name = owner) :
    put (s.addLine owner line) found = (put s found).map (addLine owner line) := by
  induction found with
  | nil => rfl
  | cons first found ih =>
    obtain ⟨hfirst, hnodup⟩ := List.nodup_cons.1 hnodup
    rw [put, put, name_addLine]
    by_cases hname : first.name = s.name
    · have hrest : found.map (addLine owner line) = found.map id :=
        List.map_congr_left fun other hother => addLine_of_ne fun heq =>
          hfirst (List.mem_map.2 ⟨other, hother, heq.trans (hs.symm.trans hname.symm)⟩)
      rw [List.map_id] at hrest
      rw [if_pos hname, if_pos hname, List.map_cons, hrest]
    · rw [if_neg hname, if_neg hname, List.map_cons, ih hnodup, addLine_of_ne (hs ▸ hname)]

/-- The line of a section stands in the source that is found for it. -/
theorem collect_concat_addLine {policy : DuplicatePolicy} {sections : List Section}
    {s s' : Section} (hname : s'.header.name = s.header.name) (hline : s'.line = s.line)
    {lines : List MemberLine} (hread : s.readBody.result = .ok (.block lines))
    (hread' : s'.readBody.result = .ok (.block (lines ++ [line]))) :
    (collect policy [] (sections ++ [s'])).result =
      (collect policy [] (sections ++ [s])).result.map
        (List.map (addLine s.header.name line)) := by
  rw [collect_append, collect_append, Logged.bind_result, Logged.bind_result]
  cases hfound : (collect policy [] sections).result with
  | error e => rfl
  | ok found =>
    have hcheck : checkDuplicate policy found s' = checkDuplicate policy found s := by
      simp only [checkDuplicate, hname, hline]
    have hs : s.read.result = .ok ⟨s.header.name, s.line, .block lines⟩ := by
      rw [Section.read_eq, Logged.bind_result, hread]
      rfl
    have hs' : s'.read.result = .ok (addLine s.header.name line ⟨s.header.name, s.line,
        .block lines⟩) := by
      rw [Section.read_eq, Logged.bind_result, hread', hname, hline]
      simp only [addLine, if_true]
      rfl
    have hput : put (addLine s.header.name line ⟨s.header.name, s.line, .block lines⟩) found =
        (put ⟨s.header.name, s.line, .block lines⟩ found).map (addLine s.header.name line) :=
      put_addLine (nodup_names_of_collect hfound) rfl
    change (collect policy found [s']).result = (collect policy found [s]).result.map _
    rw [collect_singleton, collect_singleton, hcheck, hs, hs']
    cases (checkDuplicate policy found s).result with
    | error e => rfl
    | ok _ => exact congrArg Except.ok hput

end Source

namespace Declaration

theorem ofFound_addLine {owner : Text} {line : MemberLine} {m : Member}
    (hm : line.member? = .ok (some m)) (found : List Source) :
    ofFound (found.map (Source.addLine owner line)) =
      (ofFound found).map (List.map (addMember owner m)) := by
  have hkept : (found.map (Source.addLine owner line)).filter (!·.isBlankAlias) =
      (found.filter (!·.isBlankAlias)).map (Source.addLine owner line) := by
    simp only [List.filter_map, Function.comp_def, Source.isBlankAlias_addLine]
  unfold ofFound
  simp only [hkept, List.map_eq_nil_iff]
  split
  · rfl
  · exact Except.mapM_map_of_commutes (Source.ofSource_addLine hm) _

/-- A line of a member at the end of the last section, which is a block, gives one more member. -/
theorem ofText_addLine (options : Options) {t t' : Text} {sections : List Section}
    {s s' : Section} (hcut : Section.ofSegments (Segment.cut t) = sections ++ [s])
    (hcut' : Section.ofSegments (Segment.cut t') = sections ++ [s'])
    (hname : s'.header.name = s.header.name) (hline : s'.line = s.line)
    {lines : List MemberLine} (hread : s.readBody.result = .ok (.block lines))
    {line : MemberLine} (hread' : s'.readBody.result = .ok (.block (lines ++ [line])))
    {m : Member} (hm : line.member? = .ok (some m)) :
    (ofText options t').result =
      (ofText options t).result.map (List.map (addMember s.header.name m)) := by
  rw [ofText_result, ofText_result, hcut, hcut',
    Source.collect_concat_addLine hname hline hread hread']
  cases (Source.collect options.duplicates [] (sections ++ [s])).result with
  | error e => rfl
  | ok found => exact ofFound_addLine hm found

end Declaration

end InterfaceForms

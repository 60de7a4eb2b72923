import InterfaceForms.Proofs.WalkedParts

/-!
# Declarations of one name

Two headers may carry one name. Then either the text is refused at the first header that repeats a
name, or the last header of a name counts: what is read of its section takes the place of what was
read of the first, and nothing of the earlier sections is left.

* `Source.collect_of_nodup`: without repeated names the policy makes no difference.
* `Source.collect_of_firstRepeat`: the first repeated name is refused.
* `Source.find?_of_lastSection`: the last section of a name gives its source.
* `Source.scan_duplicates`: the sources of a text under both policies.
-/

namespace InterfaceForms

/-! ## The names in the headers -/

namespace Segment

variable {segments before : List Segment} {header : Header} {name : Text}

theorem headerNames_append (segments segments' : List Segment) :
    headerNames (segments ++ segments') = headerNames segments ++ headerNames segments' := by
  rw [headerNames, List.filterMap_append, List.map_append]
  rfl

theorem headerNames_of_header {s : Segment} (hs : Header.ofLine? s.text = some header) :
    headerNames [s] = [header.name] := by
  simp [headerNames, hs]

theorem headerNames_of_line {s : Segment} (hs : Header.ofLine? s.text = none) :
    headerNames [s] = [] := by
  simp [headerNames, hs]

/-- The first header whose name stands in an earlier one comes after `before`. -/
structure FirstRepeat (segments before : List Segment) (header : Header) : Prop where
  exists_after : ∃ s after, segments = before ++ s :: after ∧ Header.ofLine? s.text = some header
  nodup : (headerNames before).Nodup
  mem : header.name ∈ headerNames before

theorem exists_firstRepeat (h : ¬ (headerNames segments).Nodup) :
    ∃ before header, FirstRepeat segments before header := by
  induction segments using List.reverseRecOn with
  | nil => exact absurd List.nodup_nil h
  | append_singleton segments s ih =>
    by_cases hnodup : (headerNames segments).Nodup
    · cases hs : Header.ofLine? s.text with
      | none =>
        rw [headerNames_append, headerNames_of_line hs, List.append_nil] at h
        exact absurd hnodup h
      | some header =>
        rw [headerNames_append, headerNames_of_header hs, ← List.concat_eq_append] at h
        have hmem : header.name ∈ headerNames segments :=
          by_contra fun hnew => h (hnodup.concat hnew)
        exact ⟨segments, header, ⟨s, [], rfl, hs⟩, hnodup, hmem⟩
    · obtain ⟨before, header, ⟨x, after, rfl, hx⟩, hbefore, hmem⟩ := ih hnodup
      refine ⟨before, header, ⟨x, after ++ [s], ?_, hx⟩, hbefore, hmem⟩
      rw [List.append_assoc, List.cons_append]

/-- The last header of its name is in `s`, and `body` are the lines up to the next header. -/
structure LastSection (segments : List Segment) (s : Segment) (header : Header)
    (body : List Segment) : Prop where
  isHeader : Header.ofLine? s.text = some header
  isBody : ∀ x ∈ body, Header.ofLine? x.text = none
  exists_parts : ∃ before after, segments = before ++ s :: (body ++ after) ∧
    (∀ x ∈ after.head?, Header.ofLine? x.text ≠ none) ∧ header.name ∉ headerNames after

theorem exists_lastSection (h : name ∈ headerNames segments) :
    ∃ s header body, LastSection segments s header body ∧ header.name = name := by
  induction segments with
  | nil => cases h
  | cons s segments ih =>
    by_cases hrest : name ∈ headerNames segments
    · obtain ⟨x, header, body, ⟨hx, hbody, before, after, rfl, hafter⟩, hname⟩ := ih hrest
      exact ⟨x, header, body, ⟨hx, hbody, s :: before, after, rfl, hafter⟩, hname⟩
    · rcases (Walk.headerNames_cons s segments).1 h with ⟨header, hs, rfl⟩ | h
      · obtain ⟨body, after, rfl, hbody, hafter⟩ := Section.exists_body segments
        rw [headerNames_append, List.mem_append, not_or] at hrest
        exact ⟨s, header, body, ⟨hs, hbody, [], after, rfl, hafter, hrest.2⟩, rfl⟩
      · exact absurd h hrest

end Segment

/-! ## The sections of a text -/

namespace Section

theorem map_name_ofSegments (segments : List Segment) :
    (ofSegments segments).map (·.header.name) = Segment.headerNames segments := by
  induction segments with
  | nil => rfl
  | cons s segments ih =>
    rw [ofSegments_eq, ← List.singleton_append, Segment.headerNames_append]
    cases hs : Header.ofLine? s.text with
    | none => rw [Segment.headerNames_of_line hs, List.nil_append, ← ih]
    | some header =>
      rw [Segment.headerNames_of_header hs, List.singleton_append, ← ih]
      rfl

theorem ne_none_of_head? {s : Segment} {header : Header} {rest : List Segment}
    (hs : Header.ofLine? s.text = some header) :
    ∀ x ∈ (s :: rest).head?, Header.ofLine? x.text ≠ none := by
  rintro _ ⟨⟩
  rw [hs]
  exact Option.some_ne_none header

theorem ofSegments_of_firstRepeat {segments before : List Segment} {header : Header}
    (h : Segment.FirstRepeat segments before header) :
    ∃ s after, ofSegments segments = ofSegments before ++ s :: after ∧ s.header = header := by
  obtain ⟨⟨s, after, rfl, hs⟩, -, -⟩ := h
  rw [ofSegments_append_header before (ne_none_of_head? hs), ofSegments_eq s, hs]
  exact ⟨_, _, rfl, rfl⟩

/-- The section of the last header of a name is the last with that name. -/
theorem last?_of_lastSection {segments body : List Segment} {s : Segment} {header : Header}
    (h : Segment.LastSection segments s header body) :
    last? header.name (ofSegments segments) = some ⟨header, s.line, body⟩ := by
  obtain ⟨hs, hbody, before, after, rfl, hafter, hname⟩ := h
  have hother : (ofSegments after).reverse.find? (·.header.name = header.name) = none := by
    rw [← map_name_ofSegments] at hname
    simpa [List.find?_eq_none] using hname
  rw [last?, ofSegments_append_header before (ne_none_of_head? hs), ofSegments_cons hs hbody hafter,
    List.reverse_append, List.reverse_cons, List.append_assoc, List.find?_append, hother]
  simp

/-! ## Sections are always read -/

theorem readBlock_succeeds (owner : Text) (nested : Nat) (lines : List MemberLine)
    (segments : List Segment) : (readBlock owner nested lines segments).Succeeds := by
  induction segments generalizing nested lines with
  | nil => exact Logged.succeeds_pure _
  | cons s segments ih =>
    unfold readBlock
    split
    · split
      · exact Logged.succeeds_pure _
      · exact ih _ _
    split
    · exact ih _ _
    split
    · exact ih _ _
    split
    · split
      · exact Logged.succeeds_bind.2 ⟨(), rfl, ih _ _⟩
      · exact ih _ _
    · exact ih _ _

theorem readAlias_succeeds (owner expr : Text) (segments : List Segment) :
    (readAlias owner expr segments).Succeeds := by
  induction segments generalizing expr with
  | nil => exact Logged.succeeds_pure _
  | cons s segments ih =>
    unfold readAlias
    split
    · exact Logged.succeeds_map.2 (readBlock_succeeds owner 0 [] segments)
    split
    · exact ih _
    · exact Logged.succeeds_pure _

theorem read_succeeds (s : Section) : s.read.Succeeds := by
  rw [read_eq, Logged.succeeds_bind_pure, readBody]
  split
  · exact Logged.succeeds_map.2 (readBlock_succeeds _ 0 [] s.body)
  · exact readAlias_succeeds _ _ s.body

/-- The first section with a name gives the first source with it. -/
theorem find?_of_read {name : Text} {sections : List Section} {sources : List Source}
    (h : List.Forall₂ (fun s source => s.read.result = .ok source) sections sources) {s : Section}
    (hs : sections.find? (·.header.name = name) = some s) :
    ∃ source, s.read.result = .ok source ∧ sources.find? (·.name = name) = some source := by
  induction h with
  | nil => cases hs
  | @cons first source sections sources hread _ ih =>
    have hname := name_of_read hread
    by_cases hfirst : first.header.name = name
    · rw [List.find?_cons_of_pos (by simpa using hfirst)] at hs
      obtain rfl := Option.some.inj hs
      exact ⟨source, hread, List.find?_cons_of_pos (by simpa [hname] using hfirst)⟩
    · rw [List.find?_cons_of_neg (by simpa using hfirst)] at hs
      rw [List.find?_cons_of_neg (by simpa [hname] using hfirst)]
      exact ih hs

/-- A walk over a section alone finds its source. -/
theorem get?_after {segments body : List Segment} {s : Segment} {header : Header}
    (h : Segment.LastSection segments s header body) {source : Source}
    (hread : (read ⟨header, s.line, body⟩).result = .ok source) :
    Entries.get? header.name (Walk.start.after (s :: body)).found = some source.record := by
  have hwalk : Walk.found <$> Walk.run .lastWins Walk.start (s :: body) = _ :=
    Walk.found_run (s :: body) []
  have hcollect : (Source.collect .lastWins [] [⟨header, s.line, body⟩]).result = .ok [source] := by
    rw [Source.collect, Source.checkDuplicate_of_new (List.forall_mem_nil _), Logged.bind_ok]
    exact ⟨(), rfl, Logged.bind_ok.2 ⟨source, hread, rfl⟩⟩
  rw [ofSegments_last h.isHeader h.isBody, Logged.map_eq, Logged.map_eq, hcollect] at hwalk
  have hfound := congrArg Logged.result hwalk
  cases hrun : (Walk.run .lastWins Walk.start (s :: body)).result with
  | error e =>
    rw [hrun] at hfound
    cases hfound
  | ok w =>
    rw [hrun] at hfound
    rw [← Walk.after_of_run hrun, Except.ok.inj hfound, Source.get?_records, ← name_of_read hread]
    simp

end Section

/-! ## Both policies -/

namespace Source

variable {policy : DuplicatePolicy} {found : List Source} {sections : List Section}

theorem collect_append (policy : DuplicatePolicy) (found : List Source)
    (sections sections' : List Section) :
    collect policy found (sections ++ sections') =
      collect policy found sections >>= fun found => collect policy found sections' := by
  induction sections generalizing found with
  | nil => rw [List.nil_append, collect, pure_bind]
  | cons s sections ih => simp only [List.cons_append, collect, bind_assoc, ih]

/-- Without repeated names the policy makes no difference. -/
theorem collect_of_nodup (policy policy' : DuplicatePolicy)
    (hnodup : (sections.map (·.header.name)).Nodup)
    (hnew : ∀ source ∈ found, source.name ∉ sections.map (·.header.name)) :
    collect policy found sections = collect policy' found sections := by
  induction sections generalizing found with
  | nil => rfl
  | cons s sections ih =>
    obtain ⟨hs, hnodup⟩ := List.nodup_cons.1 hnodup
    have hother : ∀ source ∈ found, source.name ≠ s.header.name :=
      fun source hsource heq => hnew source hsource (heq ▸ List.mem_cons_self)
    rw [collect, collect, checkDuplicate_of_new hother, checkDuplicate_of_new hother]
    refine bind_congr fun _ => Logged.bind_congr_of_ok fun source hread => ih hnodup ?_
    have hname := Section.name_of_read hread
    rw [put_of_new (by rwa [hname]), List.forall_mem_append, List.forall_mem_singleton, hname]
    exact ⟨fun x hx hmem => hnew x hx (List.mem_cons_of_mem _ hmem), hs⟩

theorem collect_lastWins_succeeds (found : List Source) (sections : List Section) :
    (collect .lastWins found sections).Succeeds := by
  induction sections generalizing found with
  | nil => exact Logged.succeeds_pure _
  | cons s sections ih =>
    have hcheck : (checkDuplicate .lastWins found s).result = .ok () := by
      unfold checkDuplicate
      split
      · rfl
      · rfl
    obtain ⟨source, hread⟩ := s.read_succeeds
    rw [collect, Logged.succeeds_bind]
    exact ⟨(), hcheck, Logged.succeeds_bind.2 ⟨source, hread, ih _⟩⟩

/-- The first repeated name is refused, whatever follows. -/
theorem collect_of_firstRepeat {segments before : List Segment} {header : Header}
    (h : Segment.FirstRepeat segments before header) :
    (collect .reject [] (Section.ofSegments segments)).result =
      .error (.duplicateDeclaration header.name) := by
  obtain ⟨s, after, hsections, rfl⟩ := Section.ofSegments_of_firstRepeat h
  obtain ⟨out, hout⟩ := collect_lastWins_succeeds [] (Section.ofSegments before)
  have hnodup : ((Section.ofSegments before).map (·.header.name)).Nodup := by
    rw [Section.map_name_ofSegments]
    exact h.nodup
  rw [← collect_of_nodup .reject .lastWins hnodup (List.forall_mem_nil _)] at hout
  obtain ⟨sources, hsources, hrecords⟩ := collect_ok hout
  have hmem : s.header.name ∈ Entries.keys (records out) := by
    rw [hrecords]
    refine Entries.mem_keys_ofList.2 ?_
    rw [Section.keys_records hsources, Section.map_name_ofSegments]
    exact h.mem
  obtain ⟨r, hr⟩ : ∃ r, Entries.get? s.header.name (records out) = some r :=
    Option.ne_none_iff_exists'.1 fun hnone => Entries.get?_eq_none_iff.1 hnone hmem
  rw [get?_records] at hr
  obtain ⟨earlier, hearlier, -⟩ := Option.map_eq_some_iff.1 hr
  have hcheck : checkDuplicate .reject out s =
      Logged.fail (.duplicateDeclaration s.header.name) := by
    rw [checkDuplicate, hearlier]
  rw [hsections, collect_append, Logged.bind_error]
  refine .inr ⟨out, hout, ?_⟩
  rw [collect, hcheck]
  rfl

/-! ## The last section of a name -/

theorem keys_records (sources : List Source) :
    Entries.keys (records sources) = sources.map (·.name) := by
  rw [records, Entries.keys, List.map_map]
  rfl

/-- The sources are named in the order of the first headers. -/
theorem names_of_collect {out : List Source}
    (h : (collect policy [] sections).result = .ok out) :
    out.map (·.name) = (sections.map (·.header.name)).eraseDups := by
  obtain ⟨sources, hsources, hrecords⟩ := collect_ok h
  rw [← keys_records, hrecords, ← Section.keys_records hsources]
  exact Entries.keys_ofList _

theorem nodup_names_of_collect {out : List Source}
    (h : (collect policy [] sections).result = .ok out) : (out.map (·.name)).Nodup := by
  obtain ⟨sources, -, hrecords⟩ := collect_ok h
  rw [← keys_records, hrecords]
  exact Entries.nodup_keys_ofList _

/-- The source of a name is that of its last section. -/
theorem find?_of_lastSection {segments body : List Segment} {s : Segment} {header : Header}
    (h : Segment.LastSection segments s header body) {out : List Source}
    (hout : (collect policy [] (Section.ofSegments segments)).result = .ok out) :
    ∃ source, (Section.read ⟨header, s.line, body⟩).result = .ok source ∧
      out.find? (·.name = header.name) = some source := by
  obtain ⟨sources, hsources, hrecords⟩ := collect_ok hout
  obtain ⟨source, hread, hfind⟩ := Section.find?_of_read (List.forall₂_reverse_iff.2 hsources)
    (Section.last?_of_lastSection h)
  refine ⟨source, hread, ?_⟩
  have hget : Entries.get? header.name (records out) =
      Entries.get? header.name (records sources.reverse) := by
    rw [hrecords]
    exact (Entries.get?_ofList _).trans (congrArg _ List.map_reverse.symm)
  rw [get?_records, get?_records, hfind] at hget
  obtain ⟨found, hfound, hrecord⟩ := Option.map_eq_some_iff.1 hget
  rw [hfound, record_injective hrecord]

/-- Of sources with distinct names, a kept one is found under its name. -/
theorem find?_filter {out : List Source} (hnodup : (out.map (·.name)).Nodup) (p : Source → Bool)
    (name : Text) :
    (out.filter p).find? (·.name = name) = (out.find? (·.name = name)).filter p := by
  induction out with
  | nil => rfl
  | cons s out ih =>
    obtain ⟨hs, hnodup⟩ := List.nodup_cons.1 hnodup
    by_cases hname : s.name = name
    · subst hname
      have hother : out.find? (·.name = s.name) = none := by
        simpa [List.find?_eq_none] using hs
      have hrest := ih hnodup
      rw [hother] at hrest
      cases hp : p s <;> simp [hp, hrest, Option.filter]
    · cases hp : p s <;> simpa [List.filter_cons, hp, hname] using ih hnodup

/-! ## The sources of a text -/

/-- Where no name is repeated in the headers of a text, both policies give the same. Otherwise the
first header that repeats a name is refused, whatever follows it. If the last header wins instead,
the sources are named in the order of the first headers, and the source of a name is that of its
last header and the lines up to the next: these alone give the same record in a walk. It is left
out if it is an alias that never received an expression. -/
theorem scan_duplicates (t : Text) :
    ((Segment.headerNames (Segment.cut t)).Nodup → scan .reject t = scan .lastWins t) ∧
    (¬ (Segment.headerNames (Segment.cut t)).Nodup →
      ∃ before header, Segment.FirstRepeat (Segment.cut t) before header) ∧
    (∀ before header, Segment.FirstRepeat (Segment.cut t) before header →
      (scan .reject t).result = .error (.duplicateDeclaration header.name)) ∧
    ∃ kept : List Source,
      (scan .lastWins t).result = (if kept = [] then .error .noDeclarations else .ok kept) ∧
      (kept.map (·.name)).Sublist (Segment.headerNames (Segment.cut t)).eraseDups ∧
      ∀ name ∈ Segment.headerNames (Segment.cut t), ∃ s header body source,
        Segment.LastSection (Segment.cut t) s header body ∧ header.name = name ∧
        (Section.read ⟨header, s.line, body⟩).result = .ok source ∧
        Entries.get? name (Walk.start.after (s :: body)).found = some source.record ∧
        kept.find? (·.name = name) = if source.isBlankAlias then none else some source := by
  refine ⟨?_, Segment.exists_firstRepeat, ?_, ?_⟩
  · intro hnodup
    rw [← Section.map_name_ofSegments] at hnodup
    rw [scan, scan, collect_of_nodup .reject .lastWins hnodup (List.forall_mem_nil _)]
  · intro before header h
    rw [scan, Logged.bind_error]
    exact .inl (collect_of_firstRepeat h)
  · obtain ⟨out, hout⟩ := collect_lastWins_succeeds [] (Section.ofSegments (Segment.cut t))
    refine ⟨out.filter (!·.isBlankAlias), ?_, ?_, ?_⟩
    · have hkept : (dropBlankAliases out).result = .ok (out.filter (!·.isBlankAlias)) := rfl
      rw [scan, Logged.bind_result, hout]
      show (dropBlankAliases out >>= fun kept =>
        if kept = [] then Logged.fail .noDeclarations else return kept).result = _
      rw [Logged.bind_result, hkept]
      show (if out.filter (!·.isBlankAlias) = [] then Logged.fail .noDeclarations
        else return out.filter (!·.isBlankAlias)).result = _
      split
      · rfl
      · rfl
    · rw [← Section.map_name_ofSegments, ← names_of_collect hout]
      exact List.filter_sublist.map _
    · intro name hname
      obtain ⟨s, header, body, hlast, rfl⟩ := Segment.exists_lastSection hname
      obtain ⟨source, hread, hfind⟩ := find?_of_lastSection hlast hout
      refine ⟨s, header, body, source, hlast, rfl, hread, Section.get?_after hlast hread, ?_⟩
      rw [find?_filter (nodup_names_of_collect hout), hfind]
      cases hblank : source.isBlankAlias <;> simp [hblank, Option.filter]

end Source

end InterfaceForms

import InterfaceForms.Proofs.WalkedSources

/-!
# Walks over one part after another

A walk changes the records of the names that stand in its headers, and no others. So where the
parts of a text have names of their own, and none goes on with the declaration that another is in,
the walk over all of them finds what the walks over each of them find.

* `Walk.run_behind`: a walk leaves alone the records of other names.
* `Source.collect_flatten`: the sources of parts that have nothing to do with one another.
-/

namespace InterfaceForms

/-- The names in the headers of a text. -/
def Segment.headerNames (segments : List Segment) : List Text :=
  (segments.filterMap fun s => Header.ofLine? s.text).map (·.name)

namespace Walk

variable {policy : DuplicatePolicy} {before found : Entries Record} {place : Place}
  {s : Segment} {segments : List Segment}

theorem run_append (w : Walk) (segments segments' : List Segment) :
    run policy w (segments ++ segments') = run policy w segments >>= (run policy · segments') := by
  induction segments generalizing w with
  | nil => rw [List.nil_append, run, pure_bind]
  | cons s segments ih => rw [List.cons_append, run, run, bind_assoc, funext fun _ => ih _]

/-- The walk with other records before its own. -/
def behind (before : Entries Record) (w : Walk) : Walk := ⟨before ++ w.found, w.place⟩

theorem blockLine_behind {name : Text} (h : name ∉ Entries.keys before) (nested : Nat)
    (s : Segment) :
    blockLine (before ++ found) name nested s = (blockLine found name nested s).behind before := by
  unfold blockLine
  split
  · split
    · rfl
    · rfl
  split
  · rfl
  split
  · rw [Entries.update_append h]
    rfl
  split
  · split
    · rw [Entries.update_append h]
      rfl
    · rw [Entries.update_append h]
      rfl
  · rfl

theorem aliasLine_behind {name : Text} (h : name ∉ Entries.keys before) (s : Segment) :
    aliasLine (before ++ found) name s = (aliasLine found name s).behind before := by
  unfold aliasLine
  rw [Entries.get?_append h]
  dsimp only
  split
  · rw [Entries.update_append h]
    rfl
  split
  · rw [Entries.update_append h]
    rfl
  · rfl

/-- Records before are left alone by a step of a walk that has other names. -/
theorem next_behind {w : Walk} (h : w.Sound)
    (hkeys : ∀ name ∈ Entries.keys w.found, name ∉ Entries.keys before)
    (hheader : ∀ header ∈ Header.ofLine? s.text, header.name ∉ Entries.keys before) :
    (w.behind before).next s = (w.next s).behind before := by
  have howner : ∀ name ∈ w.place.owner?, name ∉ Entries.keys before :=
    fun name hname => hkeys name (h.mem_keys hname)
  cases hs : Header.ofLine? s.text with
  | some header =>
    rw [next_of_header hs, next_of_header hs, openSection, openSection, behind,
      Entries.insert_append (hheader header hs)]
    rfl
  | none =>
    rw [next_of_line hs, next_of_line hs]
    obtain ⟨found, place⟩ := w
    cases place with
    | outside => rfl
    | block name nested => exact blockLine_behind (howner name rfl) nested s
    | «alias» name => exact aliasLine_behind (howner name rfl) s

theorem report_behind {w : Walk}
    (hheader : ∀ header ∈ Header.ofLine? s.text, header.name ∉ Entries.keys before) :
    report policy (w.behind before) s = report policy w s := by
  unfold report
  cases hs : Header.ofLine? s.text with
  | some header =>
    dsimp only [behind]
    rw [Entries.get?_append (hheader header hs)]
  | none => rfl

theorem keys_blockLine (found : Entries Record) (name : Text) (nested : Nat) (s : Segment) :
    Entries.keys (blockLine found name nested s).found = Entries.keys found := by
  unfold blockLine
  split
  · split
    · rfl
    · rfl
  split
  · rfl
  split
  · exact Entries.keys_update _
  split
  · split
    · exact Entries.keys_update _
    · exact Entries.keys_update _
  · rfl

theorem keys_aliasLine (found : Entries Record) (name : Text) (s : Segment) :
    Entries.keys (aliasLine found name s).found = Entries.keys found := by
  unfold aliasLine
  dsimp only
  split
  · exact Entries.keys_update _
  split
  · exact Entries.keys_update _
  · rfl

/-- Only a header adds a key. -/
theorem keys_next (w : Walk) (s : Segment) {name : Text}
    (h : name ∈ Entries.keys (w.next s).found) :
    name ∈ Entries.keys w.found ∨ ∃ header ∈ Header.ofLine? s.text, name = header.name := by
  cases hs : Header.ofLine? s.text with
  | some header =>
    rw [next_of_header hs] at h
    rcases Entries.mem_keys_insert.1 h with rfl | h
    · exact .inr ⟨header, rfl, rfl⟩
    · exact .inl h
  | none =>
    rw [next_of_line hs] at h
    obtain ⟨found, place⟩ := w
    refine .inl ?_
    cases place with
    | outside => exact h
    | block owner nested => exact (keys_blockLine found owner nested s) ▸ h
    | «alias» owner => exact (keys_aliasLine found owner s) ▸ h

theorem headerNames_cons (s : Segment) (segments : List Segment) {name : Text} :
    name ∈ Segment.headerNames (s :: segments) ↔
      (∃ header ∈ Header.ofLine? s.text, name = header.name) ∨
        name ∈ Segment.headerNames segments := by
  unfold Segment.headerNames
  cases hs : Header.ofLine? s.text with
  | none => simp [hs]
  | some header => simp [hs]

/-- Records before are left alone by a walk over other names. -/
theorem run_behind {w : Walk} (h : w.Sound)
    (hkeys : ∀ name ∈ Entries.keys w.found, name ∉ Entries.keys before)
    (hheaders : ∀ name ∈ Segment.headerNames segments, name ∉ Entries.keys before) :
    run policy (w.behind before) segments = behind before <$> run policy w segments := by
  induction segments generalizing w with
  | nil => rw [run, run, map_pure]
  | cons s segments ih =>
    have hheader : ∀ header ∈ Header.ofLine? s.text, header.name ∉ Entries.keys before :=
      fun header hs => hheaders _ ((headerNames_cons s segments).2 (.inl ⟨header, hs, rfl⟩))
    have hkeys' : ∀ name ∈ Entries.keys (w.next s).found, name ∉ Entries.keys before := by
      intro name hname
      rcases keys_next w s hname with hold | ⟨header, hs, rfl⟩
      · exact hkeys name hold
      · exact hheader header hs
    have hrest := ih (h.next s) hkeys' fun name hname =>
      hheaders name ((headerNames_cons s segments).2 (.inr hname))
    rw [run, run, report_behind hheader, next_behind h hkeys hheader, hrest, map_bind]

theorem keys_after (w : Walk) (segments : List Segment) {name : Text}
    (h : name ∈ Entries.keys (w.after segments).found) :
    name ∈ Entries.keys w.found ∨ name ∈ Segment.headerNames segments := by
  induction segments generalizing w with
  | nil => exact .inl h
  | cons s segments ih =>
    rw [headerNames_cons]
    rcases ih (w.next s) h with h | h
    · rcases keys_next w s h with h | h
      · exact .inl h
      · exact .inr (.inl h)
    · exact .inr (.inr h)

/-! ## Parts with names of their own -/

/-- The parts have nothing to do with one another: no name stands in the headers of two of them,
and either each ends outside of any declaration, or each begins with a header. -/
structure Separate (parts : List (List Segment)) : Prop where
  names : parts.Pairwise fun part part' =>
    List.Disjoint (Segment.headerNames part) (Segment.headerNames part')
  places : (∀ part ∈ parts, (start.after part).place = .outside) ∨
    ∀ part ∈ parts, ∀ s ∈ part.head?, Header.ofLine? s.text ≠ none

namespace Separate

variable {parts parts' : List (List Segment)}

theorem tail {part : List Segment} (h : Separate (part :: parts)) : Separate parts where
  names := (List.pairwise_cons.1 h.names).2
  places := h.places.imp (fun h x hx => h x (List.mem_cons_of_mem part hx))
    (fun h x hx => h x (List.mem_cons_of_mem part hx))

theorem perm (h : Separate parts) (hperm : parts.Perm parts') : Separate parts' where
  names := (hperm.pairwise_iff fun h => List.disjoint_comm.1 h).1 h.names
  places := h.places.imp (fun h x hx => h x (hperm.mem_iff.2 hx))
    (fun h x hx => h x (hperm.mem_iff.2 hx))

end Separate

theorem head?_flatten {parts : List (List Segment)}
    (h : ∀ part ∈ parts, ∀ s ∈ part.head?, Header.ofLine? s.text ≠ none) :
    ∀ s ∈ parts.flatten.head?, Header.ofLine? s.text ≠ none := by
  intro s hs
  rw [List.head?_flatten] at hs
  obtain ⟨part, hpart, hhead⟩ := List.exists_of_findSome?_eq_some hs
  exact h part hpart s hhead

theorem found_run_flatten {parts : List (List Segment)} (h : Separate parts)
    (hnew : ∀ part ∈ parts, ∀ name ∈ Segment.headerNames part, name ∉ Entries.keys before) :
    Walk.found <$> run policy ⟨before, .outside⟩ parts.flatten =
      (fun founds => before ++ founds.flatten) <$>
        parts.mapM fun part => Walk.found <$> run policy start part := by
  induction parts generalizing before with
  | nil => simp [run]
  | cons part parts ih =>
    have hpart := (List.pairwise_cons.1 h.names).1
    have hstart : (⟨before, .outside⟩ : Walk) = start.behind before := by
      rw [behind, start, List.append_nil]
    rw [List.flatten_cons, run_append, hstart,
      run_behind Walk.Sound.start (List.forall_mem_nil _) (hnew part List.mem_cons_self),
      List.mapM_cons]
    simp only [map_bind, bind_map_left, map_pure]
    refine Logged.bind_congr_of_ok fun w hw => ?_
    have hw' := after_of_run hw
    have houtside : Walk.found <$> run policy (w.behind before) parts.flatten =
        Walk.found <$> run policy ⟨before ++ w.found, .outside⟩ parts.flatten := by
      rcases h.places with hends | hheads
      · have hplace := hends part List.mem_cons_self
        rw [← hw'] at hplace
        rw [behind, hplace]
      · exact found_run_of_head
          (head?_flatten fun x hx => hheads x (List.mem_cons_of_mem part hx)) _ _
    have hnew' : ∀ part' ∈ parts, ∀ name ∈ Segment.headerNames part',
        name ∉ Entries.keys (before ++ w.found) := by
      intro part' hpart' name hname
      rw [Entries.keys_append, List.mem_append, not_or]
      refine ⟨hnew part' (List.mem_cons_of_mem part hpart') name hname, fun hkey => ?_⟩
      rw [hw'] at hkey
      rcases keys_after start part hkey with hnone | hmem
      · cases hnone
      · exact hpart part' hpart' hmem hname
    rw [houtside, ih h.tail hnew']
    simp only [map_eq_pure_bind, List.flatten_cons, List.append_assoc]

end Walk

/-! ## The sources of the parts -/

namespace Source

theorem record_injective : Function.Injective record := by
  have hlines : ∀ lines lines' : List MemberLine, lines.map (·.text) = lines'.map (·.text) →
      lines.map (·.doc) = lines'.map (·.doc) → lines = lines' := by
    intro lines
    induction lines with
    | nil =>
      intro lines' htext _
      exact (List.map_eq_nil_iff.1 htext.symm).symm
    | cons line lines ih =>
      intro lines' htext hdoc
      obtain ⟨line', rest, rfl, htext, hrest⟩ := List.map_eq_cons_iff.1 htext.symm
      obtain ⟨hdoc, hdocs⟩ := List.cons.inj hdoc
      rw [ih rest hrest.symm hdocs]
      cases line
      cases line'
      simp_all
  rintro ⟨name, line, lines | expr⟩ ⟨name', line', lines' | expr'⟩ h
  · simp only [record, Record.mk.injEq] at h
    obtain ⟨rfl, rfl, -, htext, hdoc⟩ := h
    rw [hlines lines lines' htext hdoc]
  · simp [record] at h
  · simp [record] at h
  · simp only [record, Record.mk.injEq, Option.some.injEq] at h
    obtain ⟨rfl, rfl, rfl, -⟩ := h
    rfl

theorem records_injective : Function.Injective records :=
  List.map_injective_iff.2 fun _ _ h => record_injective (Prod.mk.inj h).2

/-- The sources of parts that have nothing to do with one another are those of each part. -/
theorem collect_flatten {policy : DuplicatePolicy} {parts : List (List Segment)}
    (h : Walk.Separate parts) :
    collect policy [] (Section.ofSegments parts.flatten) =
      List.flatten <$> parts.mapM fun part => collect policy [] (Section.ofSegments part) := by
  refine Logged.map_injective records_injective ?_
  have hwalk : Walk.found <$> Walk.run policy ⟨records [], .outside⟩ parts.flatten = _ :=
    Walk.found_run_flatten h nofun
  have hpart : ∀ part, Walk.found <$> Walk.run policy Walk.start part =
      records <$> collect policy [] (Section.ofSegments part) :=
    fun part => Walk.found_run part []
  rw [Walk.found_run] at hwalk
  simp only [hpart, Logged.mapM_map] at hwalk
  show records <$> collect policy [] _ = records <$> _
  rw [hwalk]
  simp only [records, Functor.map_map, List.map_flatten]
  rfl

end Source

end InterfaceForms

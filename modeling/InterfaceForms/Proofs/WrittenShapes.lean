import InterfaceForms.Proofs.LineComments
import InterfaceForms.Proofs.RecordTypes

/-!
# Written types have a shape

The one failure of the reader of types is a record that does not end or lacks an argument. A type
that is written as alternatives has none. That is seen from the start of the text alone: whatever
parentheses are taken off, even two that are no pair, and wherever a bar parts what is left, the
text goes on beginning with an alternative, and if that is a record, with all of it.

* `Text.Begins.stripParens`, `Text.Begins.exists_alternatives`: what goes on beginning so.
* `Shape.exists_ofExpr_joinWith`, `Shape.exists_ofExpr_barred`: written types are never refused.
-/

namespace InterfaceForms

/-! ## Records in written types -/

theorem Bracketed.joinWith_bar {lit top : Char → Bool} (hspace : top ' ' = true)
    (hbar : top '|' = true) {ts : List Text} (hne : ts ≠ [])
    (h : ∀ t ∈ ts, Bracketed lit top 0 t) :
    Bracketed lit top 0 (Text.joinWith TypeExpr.bar ts) := by
  have hsep : Bracketed lit top 0 TypeExpr.bar :=
    .sign (by decide) hspace (.sign (by decide) hbar (.sign (by decide) hspace .nil))
  exact Text.joinWith_of_append (fun _ _ => .append) hsep hne h

/-- Outside of literals and brackets an alternative holds neither bars nor commas. -/
theorem IsAlternative.bracketed {t : Text} (h : IsAlternative t) :
    Bracketed (fun _ => true) (fun c => c ≠ '|' && c ≠ ',') 0 t := by
  induction h with
  | name _ hn =>
    refine .of_all (List.all_eq_true.2 fun c hc => ?_)
    have hfree := List.all_eq_true.1 hn c hc
    have hsigns : c ∉ ['|', ','] := not_mem_of_class hfree (by decide)
    simp only [List.mem_cons, List.not_mem_nil, or_false, not_or] at hsigns
    simp [isNeutral, not_isQuoteMark_of_isFree hfree, bracketDelta_of_isFree hfree, hsigns]
  | literal hmark hv =>
    have hchar := ne_of_isQuotable hmark hv
    exact .literal hmark (fun c hc => ⟨(hchar c hc).1, (hchar c hc).2.1, rfl⟩) .nil
  | array _ ih =>
    have hmark : Bracketed (fun _ => true) (fun c => c ≠ '|' && c ≠ ',') (0 + 0) ['[', ']'] :=
      .brackets (by decide) .nil .nil
    exact ih.append hmark
  | record hkeys hvalues _ _ ihkeys ihvalues =>
    have hall : ∀ c : Char, (c ≠ '|' && c ≠ ',') = true → (fun _ => true) c = true :=
      fun _ _ => rfl
    have hargs := (Bracketed.joinWith_bar rfl rfl hkeys fun t ht =>
      (ihkeys t ht).mono hall).arguments
        (.joinWith_bar rfl rfl hvalues fun t ht => (ihvalues t ht).mono hall)
    have hword : Bracketed (fun _ => true) (fun c => c ≠ '|' && c ≠ ',') 0 "Recor".toList :=
      .of_all (by decide)
    exact hword.append (.sign (by decide) (by decide) (.brackets (by decide) hargs .nil))
  | parens hne _ ih =>
    exact .brackets (by decide)
      (.joinWith_bar rfl rfl hne fun t ht => (ih t ht).mono fun _ _ => rfl) .nil

/-- A record as it is written, with keys and values whose brackets stand in pairs. -/
def Text.IsRecord (t : Text) : Prop :=
  ∃ key value, t = Text.recordOf key value ∧ Bracketed (fun _ => true) (· ≠ ',') 0 key ∧
    Bracketed (fun _ => true) (fun _ => true) 0 value ∧ Text.blank key = false ∧
    Text.blank value = false

/-- Nothing at the start of the text goes on with a name before it or begins its arguments. -/
def Text.EndsName (v : Text) : Prop := ∀ c ∈ v.head?, isFree c = false ∧ c ≠ '<'

theorem Text.EndsName.start {u v : Text} (h : v.EndsName) (hu : u <+: v) : u.EndsName := by
  obtain ⟨w, rfl⟩ := hu
  cases u with
  | nil => nofun
  | cons c u => exact h

/-- Only a record and an array of it begin as a record does, and they begin with the record. -/
theorem IsAlternative.exists_record {t : Text} (h : IsAlternative t) {v args : Text}
    (hv : v.EndsName) (ht : t ++ v = "Record<".toList ++ args) :
    ∃ r w, r.IsRecord ∧ t = r ++ w := by
  have hword : "Record<".toList = 'R' :: "ecord<".toList := by decide
  induction h generalizing v with
  | @name n hne hn =>
    exfalso
    have hfree : ∀ c ∈ n, isFree c = true := List.all_eq_true.1 hn
    cases v with
    | nil =>
      have hmem : '<' ∈ n := by
        rw [List.append_nil] at ht
        rw [ht]
        exact List.mem_append_left args (by decide)
      exact absurd (hfree _ hmem) (by decide)
    | cons d v =>
      obtain ⟨hd, hangle⟩ := hv d rfl
      have hrecord : "Record<".toList ++ args = "Record".toList ++ '<' :: args := by simp
      exact hangle (Text.sign_eq (p := isFree) (by decide) hn (by decide) hd (ht.trans hrecord))
  | literal hmark _ =>
    rw [hword] at ht
    obtain ⟨rfl, -⟩ := List.cons.inj ht
    cases hmark
  | array _ ih =>
    have hmark : Text.EndsName ('[' :: ']' :: v) := by
      rintro _ ⟨⟩
      decide
    rw [List.append_assoc] at ht
    obtain ⟨r, w, hr, rfl⟩ := ih hmark ht
    exact ⟨r, w ++ ['[', ']'], hr, List.append_assoc r w _⟩
  | @record keys values hkeys hvalues hkey hvalue _ _ =>
    have hbracketed : ∀ {top : Char → Bool} {ts : List Text}, ts ≠ [] →
        (∀ t ∈ ts, IsAlternative t) → top ' ' = true → top '|' = true →
        (∀ c, (c ≠ '|' && c ≠ ',') = true → top c = true) →
        Bracketed (fun _ => true) top 0 (Text.joinWith TypeExpr.bar ts) :=
      fun hne hts hspace hbar htop =>
        .joinWith_bar hspace hbar hne fun t ht => (hts t ht).bracketed.mono htop
    have hblank : ∀ {ts : List Text}, ts ≠ [] → (∀ t ∈ ts, IsAlternative t) →
        Text.blank (Text.joinWith TypeExpr.bar ts) = false :=
      fun hne hts => (solid_of_alternatives (ends_joinWith hne hts _)).not_blank
    refine ⟨_, [], ⟨Text.joinWith TypeExpr.bar keys, Text.joinWith TypeExpr.bar values, ?_,
      hbracketed hkeys hkey (by decide) (by decide) fun c hc => ?_,
      hbracketed hvalues hvalue rfl rfl fun _ _ => rfl, hblank hkeys hkey,
      hblank hvalues hvalue⟩, (List.append_nil _).symm⟩
    · simp [Text.recordOf]
    · simp only [Bool.and_eq_true] at hc
      exact hc.2
  | parens _ _ _ =>
    rw [hword] at ht
    exact absurd (List.cons.inj ht).1 (by decide)

/-! ## Texts that begin with an alternative -/

/-- An alternative that begins with a parenthesis begins with alternatives in parentheses. -/
theorem IsAlternative.exists_inside {t : Text} (h : IsAlternative t) {u : Text} (ht : t = '(' :: u) :
    ∃ ts w, ts ≠ [] ∧ (∀ t ∈ ts, IsAlternative t) ∧
      u = Text.joinWith TypeExpr.bar ts ++ ')' :: w := by
  induction h generalizing u with
  | name hne hn =>
    rw [ht] at hn
    cases hn
  | literal hmark _ =>
    obtain ⟨rfl, -⟩ := List.cons.inj ht
    cases hmark
  | @array t h ih =>
    obtain ⟨c, t', rfl, -⟩ := h.ends.first
    obtain ⟨rfl, rfl⟩ := List.cons.inj ht
    obtain ⟨ts, w, hne, hts, rfl⟩ := ih rfl
    exact ⟨ts, w ++ ['[', ']'], hne, hts, by simp⟩
  | record _ _ _ _ _ _ => exact absurd (List.cons.inj ht).1 (by decide)
  | @parens ts hne hts _ => exact ⟨ts, [], hne, hts, (List.cons.inj ht).2.symm⟩

/-- The first part of a text is what it begins with. -/
theorem Text.exists_splitFrom (sep : Char) (n : Nesting) (t : Text) :
    ∃ first more, splitFrom sep n t = first :: more ∧ first <+: t := by
  induction t generalizing n with
  | nil => exact ⟨[], [], rfl, List.nil_prefix⟩
  | cons c t ih =>
    rw [splitFrom]
    split
    · exact ⟨[], _, rfl, List.nil_prefix⟩
    · obtain ⟨first, more, hsplit, hfirst⟩ := ih (n.step c)
      rw [hsplit]
      exact ⟨c :: first, more, rfl, (List.cons_prefix_cons).2 ⟨rfl, hfirst⟩⟩

/-- The text begins with an alternative, which ends there. -/
def Text.Begins (t : Text) : Prop := ∃ u v, IsAlternative u ∧ v.EndsName ∧ t = u ++ v

namespace Text.Begins

variable {t inner : Text}

theorem joinWith {ts : List Text} (hne : ts ≠ []) (h : ∀ t ∈ ts, IsAlternative t) {v : Text}
    (hv : v.EndsName) : Begins (Text.joinWith TypeExpr.bar ts ++ v) := by
  obtain ⟨t, ts, rfl⟩ := List.exists_cons_of_ne_nil hne
  have ht := h t List.mem_cons_self
  cases ts with
  | nil => exact ⟨t, v, ht, hv, by rw [joinWith_singleton]⟩
  | cons u ts =>
    refine ⟨t, TypeExpr.bar ++ Text.joinWith TypeExpr.bar (u :: ts) ++ v, ht, ?_, ?_⟩
    · rintro _ ⟨⟩
      decide
    · rw [joinWith_cons_cons]
      simp only [List.append_assoc]

/-- What stands behind the alternative may be cut off. -/
theorem append_part {u v w : Text} (hu : IsAlternative u) (hv : v.EndsName) (hw : w <+: v) :
    Begins (u ++ w) :=
  ⟨u, w, hu, hv.start hw, rfl⟩

theorem trim (h : t.Begins) : (Text.trim t).Begins := by
  obtain ⟨u, v, hu, hv, rfl⟩ := h
  have hsolid := solid_of_alternatives hu.ends
  have hstart : trimStart (u ++ v) = u ++ v := by
    rw [trimStart_append hsolid.not_blank, hsolid.trimStart]
  rw [Text.trim, hstart]
  cases hblank : blank v with
  | true =>
    rw [hsolid.trimEnd_append hblank, ← List.append_nil u]
    exact append_part hu hv List.nil_prefix
  | false =>
    rw [trimEnd_append hblank]
    exact append_part hu hv (trimEnd_prefix_self v)

/-- The parentheses that are taken off need not be a pair. -/
theorem of_insideParens? (h : t.Begins) (hinside : insideParens? t = some inner) :
    inner.Begins := by
  obtain ⟨u, v, hu, hv, rfl⟩ := h
  have htext := eq_of_insideParens? hinside
  obtain ⟨c, u', rfl, -⟩ := hu.ends.first
  obtain ⟨rfl, hrest⟩ := List.cons.inj htext
  obtain ⟨ts, w, hne, hts, rfl⟩ := hu.exists_inside rfl
  have hclose : Text.EndsName (')' :: (w ++ v)).dropLast := by
    have hparen : Text.EndsName (')' :: (w ++ v)) := by
      rintro _ ⟨⟩
      decide
    exact hparen.start (List.dropLast_prefix _)
  have hinner : inner = Text.joinWith TypeExpr.bar ts ++ (')' :: (w ++ v)).dropLast := by
    have hall : Text.joinWith TypeExpr.bar ts ++ ')' :: (w ++ v) = inner ++ [')'] := by
      rw [← List.cons_append, ← List.append_assoc]
      exact hrest
    rw [← List.dropLast_append_of_ne_nil (List.cons_ne_nil ')' (w ++ v)), hall,
      List.dropLast_concat]
  rw [hinner]
  exact joinWith hne hts hclose

theorem stripParens (h : t.Begins) : (Text.stripParens t).Begins := by
  fun_induction Text.stripParens t with
  | case1 t inner hinside ih => exact ih (h.trim.of_insideParens? hinside)
  | case2 t _ => exact h.trim

/-- Cut into alternatives, the text gives at least one, and the first begins with the same. -/
theorem exists_alternatives (h : t.Begins) :
    ∃ first more, alternatives t = first :: more ∧ first.Begins := by
  obtain ⟨u, v, hu, hv, rfl⟩ := h
  obtain ⟨first, more, hsplit, hfirst⟩ := exists_splitFrom '|' .start v
  have hbegins : Begins (Text.trim (u ++ first)) := (append_part hu hv hfirst).trim
  have hne : Text.trim (u ++ first) ≠ [] := by
    obtain ⟨u', v', hu', -, htrim⟩ := hbegins
    rw [htrim]
    exact List.append_ne_nil_of_left_ne_nil hu'.ends.ne_nil v'
  refine ⟨Text.trim (u ++ first), (more.map Text.trim).filter (· ≠ []), ?_, hbegins⟩
  rw [alternatives, splitTop, hu.whole.unbarred, hsplit, List.modifyHead_cons, List.map_cons,
    List.filter_cons_of_pos (by simpa using hne)]

end Text.Begins

/-! ## The shape of a written type -/

namespace Shape

variable {t : Text} {ts : List Text}

theorem exists_ofSingle (h : t.Begins) : ∃ shape, ofSingle t = .ok shape := by
  obtain ⟨u, v, hu, hv, rfl⟩ := h
  cases hstart : Text.dropStart? "Record<".toList (u ++ v) with
  | none => exact ⟨_, by rw [ofSingle, hstart]⟩
  | some args =>
    obtain ⟨_, w, ⟨key, value, rfl, hkey, hvalue, hkeyne, hvaluene⟩, rfl⟩ :=
      hu.exists_record hv (Text.dropStart?_eq_some.1 hstart)
    have hargs := Text.dropStart?_recordOf key value (w ++ v)
    have hclose := ((hkey.arguments hvalue).closeAngle?_arguments (w ++ v)).1 rfl
    rw [List.append_assoc]
    cases hrest : Text.blank (w ++ v) with
    | false => exact ⟨_, ofSingle_of_closed hargs hclose hrest⟩
    | true =>
      refine ⟨.record (Text.trim key) (Text.trim value), ?_⟩
      rw [ofSingle, hargs]
      simp only [hclose, hrest, if_true, ofRecordArguments?_bracketed hkey hkeyne hvaluene]

theorem exists_ofAlternatives_cons (h : t.Begins) (ts : List Text) :
    ∃ shape, ofAlternatives (t :: ts) = .ok shape := by
  cases ts with
  | nil =>
    cases hquote : Text.unquote? t with
    | some value => exact ⟨_, by rw [ofAlternatives, hquote]⟩
    | none =>
      rw [ofAlternatives_singleton hquote]
      exact exists_ofSingle h.stripParens
  | cons u ts => exact exists_ofAlternatives (Nat.succ_le_succ (Nat.succ_pos _))

/-- Alternatives with bars between them have a shape. -/
theorem exists_ofExpr_joinWith (hne : ts ≠ []) (h : ∀ t ∈ ts, IsAlternative t) :
    ∃ shape, ofExpr (Text.joinWith TypeExpr.bar ts) = .ok shape := by
  have hends := IsAlternative.ends_joinWith hne h TypeExpr.bar
  have hbegins := Text.Begins.joinWith hne h (v := []) nofun
  rw [List.append_nil] at hbegins
  have hmark : Text.dropEndWhile (· = ';') (Text.joinWith TypeExpr.bar ts) =
      Text.joinWith TypeExpr.bar ts :=
    hends.dropEndWhile fun c hc => by
      obtain rfl : c = ';' := by simpa using hc
      decide
  obtain ⟨first, more, halts, hfirst⟩ := hbegins.stripParens.exists_alternatives
  rw [ofExpr, bareExpr, (solid_of_alternatives hends).trim, hmark, halts]
  exact exists_ofAlternatives_cons hfirst more

/-- So have alternatives of which each follows a bar. -/
theorem exists_ofExpr_barred (hne : ts ≠ []) (h : ∀ t ∈ ts, IsAlternative t) :
    ∃ shape, ofExpr (Text.barred ts) = .ok shape := by
  obtain ⟨t, ts, rfl⟩ := List.exists_cons_of_ne_nil hne
  rw [ofExpr_barred hne h]
  have hbegins := Text.Begins.append_part (h t List.mem_cons_self) (v := []) nofun
    List.nil_prefix
  rw [List.append_nil] at hbegins
  exact exists_ofAlternatives_cons hbegins ts

end Shape

end InterfaceForms

import InterfaceForms.Declaration
import InterfaceForms.Proofs.LineComments
import InterfaceForms.Proofs.Literals
import Mathlib.Data.List.DropRight

/-!
# Members with comments

The line of a member has a colon, and what follows the colon is not looked at when the line is
tried for a header or for `readonly`. So a comment at the end of the line is found there again and
taken for the description, and all else is read as from the line without it.

* `Header.ofLine?_append`: a comment makes no header of the line of a member.
* `MemberLine.member?_trailer`: the comment gives the description and nothing else.
-/

namespace InterfaceForms

/-! ## More at the end of a text -/

namespace Text

variable {c : Char} {t : Text}

theorem blank_append (t u : Text) : blank (t ++ u) = (blank t && blank u) := List.all_append

/-- A blank is no quotation mark, no bracket and no sign that ends anything. -/
theorem ordinary_of_isBlank (h : isBlank c = true) :
    isQuoteMark c = false ∧ c ∉ ['/', ';', '\x7b', '\x7d', '<', '>', '(', ')'] := by
  have hclass : ∀ n ∈ blankCodes, (isQuoteMark (Char.ofNat n) ||
      ['/', ';', '\x7b', '\x7d', '<', '>', '(', ')'].contains (Char.ofNat n)) = false := by
    decide +kernel
  rw [← List.contains_iff_mem, Bool.not_eq_true, ← Bool.or_eq_false_iff, Bool.eq_false_iff]
  intro hspecial
  rw [isBlank_of_class (p := fun c => isQuoteMark c || List.contains _ c) hclass hspecial] at h
  cases h

theorem not_blank_of_mem (hc : c ∈ t) (hblank : isBlank c = false) : blank t = false := by
  rw [Bool.eq_false_iff]
  intro h
  have hmem := List.all_eq_true.1 h c hc
  rw [hblank] at hmem
  cases hmem

theorem mem_dropWhile {p : Char → Bool} (hc : c ∈ t) (hp : p c = false) : c ∈ t.dropWhile p := by
  rw [← List.takeWhile_append_dropWhile (p := p) (l := t), List.mem_append] at hc
  refine hc.resolve_left fun hmem => ?_
  have htake := List.mem_takeWhile_imp hmem
  rw [hp] at htake
  cases htake

theorem dropWhile_append_of_mem {p : Char → Bool} (hc : c ∈ t) (hp : p c = false) (u : Text) :
    (t ++ u).dropWhile p = t.dropWhile p ++ u := by
  have hne : t.dropWhile p ≠ [] := List.ne_nil_of_mem (mem_dropWhile hc hp)
  rw [List.dropWhile_append, if_neg (by simpa using hne)]

theorem exists_trimEnd (t : Text) : ∃ b, blank b = true ∧ t = trimEnd t ++ b := by
  refine ⟨(t.reverse.takeWhile isBlank).reverse, ?_, ?_⟩
  · rw [blank, List.all_reverse]
    exact List.all_takeWhile
  · rw [trimEnd, dropEndWhile, ← List.reverse_append, List.takeWhile_append_dropWhile,
      List.reverse_reverse]

/-- Between a text and what follows it stay the blanks that trimming takes off. -/
theorem exists_trim_append {t u : Text} (ht : blank t = false) (hu : blank u = false)
    (hend : trimEnd u = u) : ∃ b, blank b = true ∧ trim (t ++ u) = trim t ++ (b ++ u) := by
  obtain ⟨b, hb, htrim⟩ := exists_trimEnd (trimStart t)
  refine ⟨b, hb, ?_⟩
  rw [trim, trimStart_append ht, trimEnd_append hu, hend, ← List.append_assoc, trim, ← htrim]

theorem mem_trim (hc : c ∈ t) (hblank : isBlank c = false) : c ∈ trim t := by
  obtain ⟨b, hb, htrim⟩ := exists_trimEnd (trimStart t)
  have hmem : c ∈ trimStart t := mem_dropWhile hc hblank
  rw [htrim, List.mem_append] at hmem
  refine hmem.resolve_right fun hend => ?_
  rw [not_blank_of_mem hend hblank] at hb
  cases hb

/-- What trimming leaves is solid. -/
theorem solid_trim (h : blank t = false) : Solid (trim t) := by
  obtain ⟨c, hc⟩ := Option.isSome_iff_exists.1 (isSome_lead? h)
  have hhead : (trim t).head? = some c := (head?_trim t).trans hc
  obtain ⟨u, hu⟩ := List.head?_eq_some_iff.1 hhead
  have hfirst : isBlank c = false := by simpa using List.find?_some hc
  have hstart : trimStart (trim t) = trim t := by
    rw [hu, trimStart, List.dropWhile_cons, hfirst, if_neg Bool.false_ne_true]
  have hend : trimEnd (trim t) = trim t := by
    simp [trim, trimEnd, dropEndWhile, List.dropWhile_idempotent]
  refine solid_of_trim ?_ ?_
  · rw [trim, hstart, hend]
  · rw [hu]
    exact List.cons_ne_nil c u

/-- A word is looked for before the first sign that is not in it. -/
theorem dropStart?_append_of_mem {w : Text} (hc : c ∈ t) (hw : c ∉ w) (u : Text) :
    dropStart? w (t ++ u) = (dropStart? w t).map (· ++ u) := by
  cases hdrop : dropStart? w t with
  | some rest =>
    rw [Option.map_some, dropStart?_eq_some, dropStart?_eq_some.1 hdrop, List.append_assoc]
  | none =>
    rw [Option.map_none, Option.eq_none_iff_forall_ne_some]
    intro rest hrest
    rcases List.append_eq_append_iff.1 (dropStart?_eq_some.1 hrest) with
      ⟨more, hlong, -⟩ | ⟨more, hlong, -⟩
    · exact hw (hlong ▸ List.mem_append_left more hc)
    · rw [dropStart?_eq_some.2 hlong] at hdrop
      cases hdrop

theorem mem_of_dropStart? {w rest : Text} (hc : c ∈ t) (hw : c ∉ w)
    (h : dropStart? w t = some rest) : c ∈ rest := by
  rw [dropStart?_eq_some.1 h, List.mem_append] at hc
  exact hc.resolve_left hw

/-- What follows a word at the beginning goes on as the text does. -/
theorem dropWord?_append_of_mem {w : Text} (hc : c ∈ t) (hw : c ∉ w) (hblank : isBlank c = false)
    (u : Text) : dropWord? w (t ++ u) = (dropWord? w t).map (· ++ u) ∧
      ∀ rest ∈ dropWord? w t, c ∈ rest := by
  unfold dropWord?
  rw [dropStart?_append_of_mem hc hw]
  cases hdrop : dropStart? w t with
  | none => exact ⟨rfl, nofun⟩
  | some rest =>
    have hrest := mem_of_dropStart? hc hw hdrop
    cases rest with
    | nil => cases hrest
    | cons d rest =>
      simp only [Option.map_some, List.cons_append]
      cases hd : isBlank d with
      | false => simp
      | true =>
        have hne : c ≠ d := by
          rintro rfl
          rw [hblank] at hd
          cases hd
        have hmem : c ∈ rest := (List.mem_cons.1 hrest).resolve_left hne
        simp only [if_true, Option.map_some, Option.some.injEq, Option.mem_some_iff, forall_eq',
          trimStart]
        exact ⟨dropWhile_append_of_mem hmem hblank u, mem_dropWhile hmem hblank⟩

end Text

/-! ## No header -/

namespace Header

/-- A word that may stand before the name is there with or without more at the end. -/
theorem getD_dropWord?_append {w t : Text} (hc : ':' ∈ t) (hw : ':' ∉ w) (u : Text) :
    (Text.dropWord? w (t ++ u)).getD (t ++ u) = (Text.dropWord? w t).getD t ++ u ∧
      ':' ∈ (Text.dropWord? w t).getD t := by
  obtain ⟨hmore, hmem⟩ := Text.dropWord?_append_of_mem hc hw (by decide) u
  rw [hmore]
  cases hdrop : Text.dropWord? w t with
  | none => exact ⟨rfl, hc⟩
  | some rest => exact ⟨rfl, hmem rest hdrop⟩

theorem exists_cutName?_of_append {t name rest u : Text} (hc : ':' ∈ t)
    (h : cutName? (t ++ u) = some (name, rest)) :
    ∃ name' rest', cutName? t = some (name', rest') ∧ rest = rest' ++ u ∧ ':' ∈ rest' := by
  have hcolon : continuesName ':' = false := by decide +kernel
  cases t with
  | nil => cases hc
  | cons c t =>
    rw [List.cons_append, cutName?] at h
    split at h
    · rename_i hstart
      obtain ⟨-, rfl⟩ := Prod.mk.inj (Option.some.inj h)
      have hmem : ':' ∈ t := by
        refine (List.mem_cons.1 hc).resolve_left ?_
        rintro rfl
        exact absurd hstart (by decide)
      refine ⟨_, _, by rw [cutName?, if_pos hstart], ?_, Text.mem_dropWhile hmem hcolon⟩
      exact Text.dropWhile_append_of_mem hmem hcolon u
    · cases h

theorem exists_keyword_of_append {t named u : Text} (hc : ':' ∈ t)
    (h : (Text.dropWord? "interface".toList (t ++ u) <|>
      Text.dropWord? "type".toList (t ++ u)) = some named) :
    ∃ named', (Text.dropWord? "interface".toList t <|> Text.dropWord? "type".toList t) =
      some named' ∧ named = named' ++ u ∧ ':' ∈ named' := by
  obtain ⟨hinterface, hmem⟩ :=
    Text.dropWord?_append_of_mem (w := "interface".toList) hc (by decide) (by decide) u
  obtain ⟨htype, hmem'⟩ :=
    Text.dropWord?_append_of_mem (w := "type".toList) hc (by decide) (by decide) u
  rw [hinterface, htype] at h
  cases hfirst : Text.dropWord? "interface".toList t with
  | some named' =>
    rw [hfirst] at h
    exact ⟨named', rfl, (Option.some.inj h).symm, hmem named' hfirst⟩
  | none =>
    rw [hfirst] at h
    obtain ⟨named', hsecond, rfl⟩ := Option.map_eq_some_iff.1 h
    exact ⟨named', hsecond, rfl, hmem' named' hsecond⟩

/-- A line with a colon is no header for what stands at its end. -/
theorem ofLine?_append {t : Text} (hc : ':' ∈ t) (h : ofLine? t = none) (u : Text) :
    ofLine? (t ++ u) = none := by
  obtain ⟨hexport, hc⟩ := getD_dropWord?_append (w := "export".toList) hc (by decide) u
  rw [ofLine?, hexport]
  rw [ofLine?] at h
  generalize (Text.dropWord? "export".toList t).getD t = t at h hc
  obtain ⟨hdeclare, hc⟩ := getD_dropWord?_append (w := "declare".toList) hc (by decide) u
  rw [hdeclare]
  generalize (Text.dropWord? "declare".toList t).getD t = t at h hc
  rw [Option.eq_none_iff_forall_ne_some]
  intro header hline
  simp only [Option.bind_eq_bind, Option.bind_eq_some_iff] at hline
  obtain ⟨named, hkeyword, ⟨name, rest⟩, hcut, hrest⟩ := hline
  obtain ⟨named', hkeyword', rfl, hnamed⟩ := exists_keyword_of_append hc hkeyword
  obtain ⟨name', rest', hcut', rfl, hmem⟩ := exists_cutName?_of_append hnamed hcut
  have hstart : Text.trimStart (rest' ++ u) = Text.trimStart rest' ++ u :=
    Text.dropWhile_append_of_mem hmem (by decide) u
  -- So a header is found without `u` too, as there is no line break in the longer rest.
  simp only [hkeyword', hcut', Option.bind_eq_bind, Option.bind_some, hstart] at h hrest
  split at h
  · rename_i hbreak
    simp [List.contains_iff_mem.1 hbreak] at hrest
  · cases h

end Header

/-! ## The comment -/

theorem Quoting.inside_run_of_blank {q : Quoting} (hq : q.inside = false) {b : Text}
    (hb : Text.blank b = true) : (q.run b).inside = false := by
  induction b generalizing q with
  | nil => exact hq
  | cons c b ih =>
    simp only [Text.blank, List.all_cons, Bool.and_eq_true] at hb
    refine ih ?_ hb.2
    rw [step_outside hq, inside_start_step (Text.ordinary_of_isBlank hb.1).1]

theorem Passes.run :
    Passes (fun (_ : Unit) q t => (Quoting.run q t).inside) (fun _ b => b) (fun _ k => k)
      (fun _ _ => True) where
  outside _ q t hq := by
    cases t with
    | nil => exact hq
    | cons c t => simp only [Quoting.run_cons, Quoting.step_outside hq]
  inside _ _ _ _ _ _ _ := rfl
  quote _ _ := rfl
  plain _ _ _ _ _ _ _ := rfl
  opens _ _ _ _ _ := rfl
  closes _ _ _ _ _ := rfl
  free_into _ _ _ _ := trivial

/-- No literal is open where balanced code ends. -/
theorem Code.closed {no t : Text} (h : Code no t) : (Quoting.start.run t).inside = false := by
  have hpass := h.pass Passes.run (k := ()) trivial []
  rwa [List.append_nil, foldr_keep] at hpass

/-- Behind a text without a comment one is looked for, unless two slashes meet. -/
theorem Text.cutComment?_append_of_none {q : Quoting} {t u : Text} (h : cutComment? q t = none)
    (hu : u.head? ≠ some '/') :
    cutComment? q (t ++ u) =
      (cutComment? (q.run t) u).map fun (code, comment) => (t ++ code, comment) := by
  induction t generalizing q with
  | nil => simp
  | cons c t ih =>
    unfold cutComment? at h
    split at h
    · cases h
    · rename_i hnot
      have hhead : ¬ (!q.inside && c = '/' && (t ++ u).head? = some '/') = true := by
        cases t with
        | nil => simp [hu]
        | cons d t => exact hnot
      rw [List.cons_append, cutComment?, if_neg hhead, ih (Option.map_eq_none_iff.1 h),
        Option.map_map]
      rfl

namespace Member

theorem bareLine_suffix (t : Text) : bareLine t <:+ Text.trim t := by
  rw [bareLine]
  refine (List.dropWhile_suffix _).trans ?_
  cases hdrop : Text.dropStart? "readonly ".toList (Text.trim t) with
  | none => exact List.suffix_refl _
  | some rest => exact ⟨_, (Text.dropStart?_eq_some.1 hdrop).symm⟩

/-- In a line with a colon nothing is taken off before the colon for what follows it. -/
theorem exists_bareLine_append {t u : Text} (hc : ':' ∈ t) (hu : Text.blank u = false)
    (hend : Text.trimEnd u = u) :
    ∃ b, Text.blank b = true ∧ bareLine (t ++ u) = bareLine t ++ (b ++ u) := by
  have hcolon : Text.isBlank ':' = false := by decide
  obtain ⟨b, hb, htrim⟩ :=
    Text.exists_trim_append (Text.not_blank_of_mem hc hcolon) hu hend
  have hmem := Text.mem_trim hc hcolon
  have hword : ':' ∉ "readonly ".toList := by decide
  refine ⟨b, hb, ?_⟩
  simp only [bareLine, htrim, Text.dropStart?_append_of_mem hmem hword]
  cases hdrop : Text.dropStart? "readonly ".toList (Text.trim t) with
  | none => exact Text.dropWhile_append_of_mem hmem hcolon _
  | some rest =>
    exact Text.dropWhile_append_of_mem (Text.mem_of_dropStart? hmem hword hdrop) hcolon _

/-- The comment and the blanks before it are cut off. -/
theorem codeAndComment_trailer {t : Text} (hcode : Text.cutComment? .start t = none)
    (hclosed : (Quoting.start.run t).inside = false) (hend : Text.trimEnd t = t) {b w : Text}
    (hb : Text.blank b = true) (hw : w.Solid) :
    codeAndComment (t ++ (b ++ Cutter.trailer w)) = (t, some w) := by
  have hblank : Text.blank (b ++ [' ']) = true := by
    rw [Text.blank_append, hb]
    rfl
  have hslash : '/' ∉ b ++ [' '] := fun hmem => by
    rw [Text.not_blank_of_mem hmem (by decide)] at hblank
    cases hblank
  have htext : b ++ Cutter.trailer w = (b ++ [' ']) ++ ('/' :: '/' :: ' ' :: w) := by
    simp [Cutter.trailer]
  have hhead : ((b ++ [' ']) ++ ('/' :: '/' :: ' ' :: w)).head? ≠ some '/' := by
    intro h
    cases b with
    | nil => cases h
    | cons c b => exact hslash (Option.some.inj h ▸ List.mem_cons_self)
  have hopen : ∀ q : Quoting, q.inside = false →
      Text.cutComment? q ('/' :: '/' :: ' ' :: w) = some ([], ' ' :: w) := by
    intro q hq
    simp [Text.cutComment?, hq]
  have hcut : Text.cutComment? .start (t ++ (b ++ Cutter.trailer w)) =
      some (t ++ (b ++ [' ']), ' ' :: w) := by
    rw [htext, Text.cutComment?_append_of_none hcode hhead, Text.cutComment?_append _ hslash,
      hopen _ (Quoting.inside_run_of_blank hclosed hblank)]
    simp
  have htrim : Text.trimEnd (t ++ (b ++ [' '])) = t :=
    (Text.dropEndWhile_append_of_all hblank).trans hend
  have hwords : Text.trim ((' ' :: w).dropWhile (· = '/')) = w := hw.trim_space
  simp only [codeAndComment, hcut, hwords, hw.ne_nil, htrim, if_false]

theorem ofCode_description (code : Text) (description : Option Text) :
    ofCode code description =
      (ofCode code none).map (Option.map fun m => { m with description := description }) := by
  unfold ofCode
  split
  · rfl
  · dsimp only
    split
    · rfl
    · cases Shape.ofExpr _ <;> rfl

/-- The line declares the member, and there is no comment in it. -/
structure Written (t : Text) (m : Member) : Prop where
  line : ofLine t = .ok (some m)
  code : Text.cutComment? .start (bareLine t) = none
  closed : (Quoting.start.run (bareLine t)).inside = false

instance (t : Text) (m : Member) : Decidable (Written t m) :=
  decidable_of_iff (ofLine t = .ok (some m) ∧ Text.cutComment? .start (bareLine t) = none ∧
      (Quoting.start.run (bareLine t)).inside = false)
    ⟨fun ⟨line, code, closed⟩ => ⟨line, code, closed⟩, fun h => ⟨h.line, h.code, h.closed⟩⟩

namespace Written

variable {t : Text} {m : Member}

theorem ofCode (h : Written t m) : Member.ofCode (bareLine t) none = .ok (some m) := by
  have hline := h.line
  rwa [ofLine, codeAndComment, h.code] at hline

theorem colon_mem_bareLine (h : Written t m) : ':' ∈ bareLine t := by
  have hcode := h.ofCode
  unfold Member.ofCode at hcode
  split at hcode
  · cases hcode
  · rename_i hcut
    rw [Text.cutTop?_eq_some hcut]
    simp

theorem colon_mem (h : Written t m) : ':' ∈ t := by
  have hmem := (bareLine_suffix t).subset h.colon_mem_bareLine
  exact (List.dropWhile_suffix _).subset ((Text.trimEnd_prefix_self _).subset hmem)

theorem trimEnd_bareLine (h : Written t m) : Text.trimEnd (bareLine t) = bareLine t := by
  have hcolon : Text.isBlank ':' = false := by decide
  have hblank := Text.not_blank_of_mem h.colon_mem_bareLine hcolon
  obtain ⟨a, ha⟩ := bareLine_suffix t
  have htrim := (Text.solid_trim (Text.not_blank_of_mem h.colon_mem hcolon)).trimEnd
  rw [← ha, Text.trimEnd_append hblank] at htrim
  exact List.append_cancel_left htrim

/-- A comment at the end of the line gives the description. -/
theorem ofLine_trailer (h : Written t m) {b w : Text} (hb : Text.blank b = true)
    (hw : w.Solid) :
    ofLine (t ++ (b ++ Cutter.trailer w)) = .ok (some { m with description := some w }) := by
  have hsolid : Text.trimEnd (b ++ Cutter.trailer w) = b ++ Cutter.trailer w := by
    rw [Cutter.trailer, ← List.append_assoc, Text.trimEnd_append hw.not_blank, hw.trimEnd]
  have hblank : Text.blank (b ++ Cutter.trailer w) = false :=
    Text.not_blank_of_mem (c := '/') (by simp [Cutter.trailer]) (by decide)
  obtain ⟨b', hb', hbare⟩ := exists_bareLine_append h.colon_mem hblank hsolid
  have hgap : Text.blank (b' ++ b) = true := by
    rw [Text.blank_append, hb', hb]
    rfl
  rw [ofLine, hbare, ← List.append_assoc b',
    codeAndComment_trailer h.code h.closed h.trimEnd_bareLine hgap hw]
  dsimp only
  rw [ofCode_description, h.ofCode]
  rfl

theorem description (h : Written t m) : m.description = none := by
  have hcode := ofCode_description (bareLine t) none
  rw [h.ofCode] at hcode
  have hm := Option.some.inj (Except.ok.inj hcode)
  rw [hm]

end Written

end Member

namespace MemberLine

variable {t : Text} {m : Member}

/-- Without a comment at the end of its line a member is described by the block comment before. -/
theorem member?_of_written (h : Member.Written t m) (doc : Option Text) :
    member? ⟨t, doc⟩ = .ok (some { m with description := doc }) := by
  have hmember : member? ⟨t, doc⟩ =
      .ok (some { m with description := m.description.or doc }) := by
    rw [member?, h.line]
    rfl
  rw [hmember, h.description, Option.none_or]

theorem member?_trailer (h : Member.Written t m) (doc : Option Text) {b w : Text}
    (hb : Text.blank b = true) (hw : w.Solid) :
    member? ⟨t ++ (b ++ Cutter.trailer w), doc⟩ =
      .ok (some { m with description := some w }) := by
  rw [member?, h.ofLine_trailer hb hw]
  rfl

end MemberLine

end InterfaceForms

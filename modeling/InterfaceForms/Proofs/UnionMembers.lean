import InterfaceForms.Proofs.CommentedFields
import InterfaceForms.Proofs.WrittenTypes

/-!
# Members with unions on one line and on several

The alternatives of a member may follow its name on the same line, or each stands on a line of its
own after a bar. The lines are put together again while the block is read: each alternative goes
to the end of the member, or in front of the first ` // ` in it, which need not be a comment. Where
no alternative but the last holds that, the member reads as from one line.

* `MemberLine.foldl_extend`: the member put together from lines.
* `FieldHead.member?_joinWith`, `FieldHead.member?_barred`: what it is read as.
* `Text.oneSegment_of_holding`: a line of code with blanks before it is one segment.
-/

namespace InterfaceForms

/-! ## Members -/

/-- A name that a member may have without quotation marks. -/
structure IsFieldName (n : Text) : Prop where
  starts : MemberLine.startsMember n = true
  free : n.all isFree = true

/-- What stands of a member before its type. -/
structure FieldHead where
  name : Text
  optional : Bool

namespace FieldHead

/-- What stands before the colon. -/
def left (f : FieldHead) : Text := f.name ++ if f.optional then ['?'] else []

def text (f : FieldHead) : Text := f.left ++ [':']

/-- The member with the type `type`. -/
def code (f : FieldHead) (type : Text) : Text := f.text ++ ' ' :: type

/-- The member that is read from the type `type` of shape `shape`. -/
def member (f : FieldHead) (type : Text) (shape : Shape) : Member :=
  ⟨f.name, f.optional, type, none, shape⟩

end FieldHead

/-- Alternatives behind a head on its line. -/
def Text.onOneLine (head : Text) (ts : List Text) : Text :=
  head ++ ' ' :: joinWith TypeExpr.bar ts

/-- Alternatives behind a head, each on a line of its own. -/
def Text.onManyLines (head : Text) (ts : List Text) : List Text :=
  head :: ts.map ("| ".toList ++ ·)

/-- The alternatives of a union: two or more. -/
structure AreAlternatives (ts : List Text) : Prop where
  two : 2 ≤ ts.length
  each : ∀ t ∈ ts, IsAlternative t

theorem AreAlternatives.ne_nil {ts : List Text} (h : AreAlternatives ts) : ts ≠ [] := by
  rintro rfl
  exact absurd h.two (by decide)

namespace IsFieldName

variable {n : Text}

theorem ne_nil (h : IsFieldName n) : n ≠ [] := by
  rintro rfl
  cases h.starts

theorem char (h : IsFieldName n) {c : Char} (hc : c ∈ n) : isFree c = true :=
  List.all_eq_true.1 h.free c hc

theorem ends (h : IsFieldName n) : n.Ends isFree isFree := .of_all h.ne_nil h.free

theorem solid (h : IsFieldName n) : n.Solid :=
  h.ends.mono (fun _ hc => by simp [isBlank_of_isFree hc]) fun _ hc => by
    simp [isBlank_of_isFree hc]

theorem starts_append (h : IsFieldName n) (t : Text) : MemberLine.startsMember (n ++ t) = true := by
  obtain ⟨c, u, rfl, -, -, hall⟩ := MemberLine.exists_of_startsMember h.starts
  exact hall _

end IsFieldName

namespace FieldHead

variable {f : FieldHead}

/-- A sign that is not blank follows the name. -/
theorem exists_text_append (f : FieldHead) (t : Text) :
    ∃ d u, f.text ++ t = f.name ++ d :: u ∧ (d = '?' ∨ d = ':') := by
  unfold text left
  cases f.optional with
  | true => exact ⟨'?', ':' :: t, by simp, .inl rfl⟩
  | false => exact ⟨':', t, by simp, .inr rfl⟩

/-- The line of a member is no header. -/
theorem ofLine?_text_append (h : IsFieldName f.name) (t : Text) :
    Header.ofLine? (f.text ++ t) = none := by
  obtain ⟨d, u, hd, rfl | rfl⟩ := f.exists_text_append t
  all_goals
    rw [hd]
    exact Header.ofLine?_of_run (fun _ => isBlank_of_isFree) (by decide) h.free (by decide)
      (by decide)

theorem startsMember_text_append (h : IsFieldName f.name) (t : Text) :
    MemberLine.startsMember (f.text ++ t) = true := by
  obtain ⟨d, u, hd, -⟩ := f.exists_text_append t
  rw [hd]
  exact h.starts_append _

theorem ends_text (h : IsFieldName f.name) : f.text.Ends isFree closesAlternative := by
  have hname : f.name.Ends isFree closesAlternative :=
    h.ends.mono (fun _ hc => hc) fun _ => closesAlternative_of_isFree
  rw [text, left, List.append_assoc]
  exact hname.append_char (by decide) _

theorem ends_code (h : IsFieldName f.name) {type : Text} {p : Char → Bool}
    (htype : type.Ends p closesAlternative) : (f.code type).Ends isFree closesAlternative := by
  obtain ⟨c, u, hcu, hc⟩ := (ends_text h).first
  obtain ⟨v, d, rfl, hd⟩ := htype.last
  exact ⟨⟨c, u ++ ' ' :: (v ++ [d]), by rw [code, hcu]; rfl, hc⟩,
    ⟨f.text ++ ' ' :: v, d, by simp [code], hd⟩⟩

theorem solid_code (h : IsFieldName f.name) {type : Text} {p : Char → Bool}
    (htype : type.Ends p closesAlternative) : (f.code type).Solid :=
  solid_of_closes (ends_code h htype) fun _ => isBlank_of_isFree

/-! ## The member in a line -/

theorem bareLine_code (h : IsFieldName f.name) {type : Text} {p : Char → Bool}
    (htype : type.Ends p closesAlternative) : Member.bareLine (f.code type) = f.code type := by
  have hsolid := solid_code h htype
  have hdrop : Text.dropStart? "readonly ".toList (f.code type) = none := by
    obtain ⟨d, u, hd, hsign⟩ := f.exists_text_append (' ' :: type)
    have hword : "readonly ".toList = "readonly".toList ++ [' '] := by decide
    rw [code, hd, hword]
    rcases hsign with rfl | rfl
    all_goals
      exact Text.dropStart?_of_sign (by decide) h.free (by decide) (by decide) (by decide)
  simp only [Member.bareLine, hsolid.trim, hdrop, Option.getD_none, hsolid.trimStart]

theorem whole_text (h : IsFieldName f.name) {d : Int} : f.text.Whole d := by
  have hmark : Text.Whole d (if f.optional then ['?'] else []) := by
    split
    · exact .char (by decide) rfl (by decide) fun hbar => absurd hbar (by decide)
    · exact .nil
  have hname : f.name.Whole d := .of_all (fun _ => .free) h.free
  have hcolon : Text.Whole d [':'] :=
    .char (by decide) rfl (by decide) fun hbar => absurd hbar (by decide)
  exact (hname.append hmark).append hcolon

theorem codeAndComment_code (h : IsFieldName f.name) {type : Text} (htype : type.Uncommented) :
    Member.codeAndComment (f.code type) = (f.code type, none) := by
  have hspace : Text.Uncommented [' '] := (Text.Whole.space (d := 0)).uncommented
  have hcode : (f.code type).Uncommented :=
    (whole_text h (d := 0)).uncommented.append (hspace.append htype)
  rw [Member.codeAndComment, hcode.cutComment?]

/-- The first colon follows the name. -/
theorem cutTop?_code (h : IsFieldName f.name) (type : Text) :
    Text.cutTop? ':' (f.code type) = some (f.left, ' ' :: type) := by
  -- The name and the question mark leave the search where it was.
  have hpass : ∀ (t : Text) (n : Nesting), (∀ c ∈ t, isFree c = true ∨ c = '?') →
      n.quoting.inside = false → n.depth = 0 →
      Text.cutFrom? ':' n (t ++ ':' :: ' ' :: type) = some (t, ' ' :: type) := by
    intro t
    induction t with
    | nil =>
      intro n _ hn hdepth
      simp [Text.cutFrom?, Nesting.top, hn, hdepth]
    | cons c t ih =>
      intro n ht hn hdepth
      have hc : c ≠ ':' ∧ isQuoteMark c = false ∧ bracketDelta c = 0 := by
        rcases ht c List.mem_cons_self with hc | rfl
        · exact ⟨ne_of_class hc (by decide), not_isQuoteMark_of_isFree hc,
            bracketDelta_of_isFree hc⟩
        · exact ⟨by decide, by decide, by decide⟩
      rw [List.cons_append, Text.cutFrom?, if_neg (by simp [hc.1]),
        ih (n.step c) (fun x hx => ht x (List.mem_cons_of_mem c hx))
          (Nesting.inside_step_outside hn hc.2.1)
          (by rw [Nesting.depth_step_outside hn, hdepth, hc.2.2]; rfl)]
      rfl
  rw [Text.cutTop?, code, text, List.append_assoc]
  refine hpass f.left .start (fun c hc => ?_) rfl rfl
  unfold left at hc
  rcases List.mem_append.1 hc with hc | hc
  · exact .inl (h.char hc)
  · split at hc
    · exact .inr (List.mem_singleton.1 hc)
    · cases hc

theorem nameOf_left (h : IsFieldName f.name) : Member.nameOf f.left = f.name := by
  have hmark : ∀ c : Char, (c = '?' : Bool) = true → isFree c = false := by
    intro c hc
    obtain rfl := of_decide_eq_true hc
    decide
  have hleft : Text.dropEndWhile (· = '?') f.left = f.name := by
    unfold left
    split
    · rw [Text.dropEndWhile_append_of_all (by decide), h.ends.dropEndWhile hmark]
    · rw [List.append_nil, h.ends.dropEndWhile hmark]
  have hquote : Text.unquote? f.name = none := by
    obtain ⟨c, u, hname, hc⟩ := h.ends.first
    rw [hname, Text.unquote?_of_head (not_isQuoteMark_of_isFree hc)]
  simp only [Member.nameOf, hleft, h.solid.trim, hquote, Option.getD_none]

theorem endsWith_left (h : IsFieldName f.name) : Text.endsWith '?' f.left = f.optional := by
  cases hopt : f.optional with
  | true => simp [left, hopt, Text.endsWith]
  | false =>
    have hleft : f.left = f.name := by simp [left, hopt]
    rw [hleft]
    exact h.ends.endsWith (by decide)

theorem solid_left (h : IsFieldName f.name) : f.left.Solid := by
  unfold left
  split
  · exact h.solid.append_char (d := '?') (by decide) []
  · rw [List.append_nil]
    exact h.solid

theorem rawTypeOf_type {type : Text} (htype : type.Ends opensAlternative closesAlternative) :
    Member.rawTypeOf (' ' :: type) = type := by
  have hsolid := solid_of_alternatives htype
  have hmark : ∀ c : Char, (c = ';' || c = ',') = true → closesAlternative c = false := by
    intro c hc
    simp only [Bool.or_eq_true, decide_eq_true_eq] at hc
    rcases hc with rfl | rfl
    · decide
    · decide
  rw [Member.rawTypeOf, hsolid.trim_space, htype.dropEndWhile hmark, hsolid.trim]

/-- A member without a comment is read back from its line. -/
theorem member?_code (h : IsFieldName f.name) {type : Text}
    (htype : type.Ends opensAlternative closesAlternative)
    (hcomment : type.Uncommented) {shape : Shape} (hshape : Shape.ofExpr type = .ok shape) :
    MemberLine.member? ⟨f.code type, none⟩ = .ok (some (f.member type shape)) := by
  have hparen : f.left.contains '(' = false := by
    have hname : '(' ∉ f.name := fun hmem => absurd (h.char hmem) (by decide)
    cases hopt : f.optional <;> simp [left, hopt, hname]
  have hcode : Member.ofCode (f.code type) none = .ok (some (f.member type shape)) := by
    simp only [Member.ofCode, cutTop?_code h, (solid_left h).trim, rawTypeOf_type htype,
      (solid_left h).ne_nil, hparen, htype.ne_nil, hshape, nameOf_left h, endsWith_left h]
    rfl
  have hline : Member.ofLine (f.code type) = .ok (some (f.member type shape)) := by
    rw [Member.ofLine, bareLine_code h htype, codeAndComment_code h hcomment]
    exact hcode
  rw [MemberLine.member?, hline]
  rfl

section Unions

variable {ts : List Text} {shape : Shape} (h : IsFieldName f.name) (hts : AreAlternatives ts)
  (hshape : Shape.ofAlternatives ts = .ok shape)
include h hts hshape

theorem member?_joinWith (hparens : Text.insideParens? (Text.joinWith TypeExpr.bar ts) = none) :
    MemberLine.member? ⟨f.code (Text.joinWith TypeExpr.bar ts), none⟩ =
      .ok (some (f.member (Text.joinWith TypeExpr.bar ts) shape)) := by
  refine member?_code h (IsAlternative.ends_joinWith hts.ne_nil hts.each _) ?_ ?_
  · exact (Text.Whole.joinWith_bar hts.ne_nil fun t ht => (hts.each t ht).whole).uncommented
  · rw [Shape.ofExpr_joinWith hts.ne_nil hts.each hparens, hshape]

theorem member?_barred : MemberLine.member? ⟨f.code (Text.barred ts), none⟩ =
    .ok (some (f.member (Text.barred ts) shape)) := by
  refine member?_code h (IsAlternative.ends_barred hts.ne_nil hts.each) ?_ ?_
  · exact (Text.Whole.barred hts.ne_nil fun t ht => (hts.each t ht).whole).uncommented
  · rw [Shape.ofExpr_barred hts.ne_nil hts.each, hshape]

end Unions

end FieldHead

/-! ## Alternatives on lines of their own -/

/-- A word without the character `c` does not stand across it. -/
theorem Text.not_infix_append_cons {w t u : Text} {c : Char} (hc : c ∉ w) (ht : ¬ w <:+: t)
    (hu : ¬ w <:+: u) : ¬ w <:+: t ++ c :: u := by
  rintro ⟨a, b, h⟩
  rcases List.append_eq_append_iff.1 h with ⟨x, hx, -⟩ | ⟨x, hx, hxb⟩
  · exact ht ⟨a, x, hx.symm⟩
  · cases x with
    | nil =>
      rw [List.append_nil] at hx
      exact ht ⟨a, [], by rw [List.append_nil, hx]⟩
    | cons d x =>
      obtain ⟨rfl, rfl⟩ := List.cons.inj hxb
      rcases List.append_eq_append_iff.1 hx with ⟨y, -, hw⟩ | ⟨y, -, hw⟩
      · exact hc (hw ▸ List.mem_append_right y List.mem_cons_self)
      · cases y with
        | nil =>
          rw [List.nil_append] at hw
          exact hc (hw ▸ List.mem_cons_self)
        | cons e y =>
          obtain ⟨-, rfl⟩ := List.cons.inj hw
          exact hu ⟨y, b, rfl⟩

namespace MemberLine

/-- What a comment at the end of a line begins with. -/
def trailerMark : Text := " // ".toList

theorem cutTrailer_of_not_infix {t : Text} (h : ¬ trailerMark <:+: t) :
    cutTrailer t = (t, []) := by
  induction t with
  | nil => rfl
  | cons c t ih =>
    have hstart : " // ".toList.isPrefixOf (c :: t) = false := by
      rw [Bool.eq_false_iff]
      exact fun hstart => h (List.isPrefixOf_iff_prefix.1 hstart).isInfix
    rw [cutTrailer, hstart, if_neg Bool.false_ne_true,
      ih fun hin => h (hin.trans (List.suffix_cons c t).isInfix)]

/-- No ` // ` comes to stand between alternatives, as none begins or ends in a slash. -/
theorem not_infix_append_bar {p q : Char → Bool} {x t : Text}
    (hx : x.Ends p closesAlternative) (hxmark : ¬ trailerMark <:+: x)
    (ht : t.Ends opensAlternative q) (htmark : ¬ trailerMark <:+: t) :
    ¬ trailerMark <:+: x ++ (TypeExpr.bar ++ t) := by
  have hparts : x ++ (TypeExpr.bar ++ t) = (x ++ [' ']) ++ '|' :: (' ' :: t) := by
    simp [TypeExpr.bar]
  rw [hparts]
  refine Text.not_infix_append_cons (by decide) ?_ ?_
  · rw [List.infix_concat_iff]
    rintro (⟨a, ha⟩ | hin)
    · obtain ⟨u, c, rfl, hc⟩ := hx.last
      have hlast : a ++ " //".toList ++ [' '] = u ++ [c] ++ [' '] := by
        rw [← ha]
        simp [trailerMark]
      have hslash := congrArg List.getLast? (List.append_cancel_right hlast)
      obtain rfl : c = '/' := by simpa using hslash.symm
      exact absurd hc (by decide)
    · exact hxmark hin
  · rw [List.infix_cons_iff]
    rintro (hstart | hin)
    · obtain ⟨c, u, rfl, hc⟩ := ht.first
      obtain rfl : '/' = c := (List.cons_prefix_cons.1 (List.cons_prefix_cons.1 hstart).2).1
      exact absurd hc (by decide)
    · exact htmark hin

/-- An alternative goes to the end of a line without a comment. -/
theorem extend_of_not_infix {x : Text} (hx : x.Solid) (hmark : ¬ trailerMark <:+: x)
    (doc : Option Text) (t : Text) :
    extend ⟨x, doc⟩ ("| ".toList ++ t) = ⟨x ++ (TypeExpr.bar ++ t), doc⟩ := by
  simp only [extend, cutTrailer_of_not_infix hmark, hx.trimEnd]
  simp [TypeExpr.bar]

/-- The alternatives go to the end one after another. Where the last one is put, no comment needs to
be looked for any more. -/
theorem foldl_extend {p : Char → Bool} (hp : ∀ c, p c = true → Text.isBlank c = false)
    {ts : List Text} (hts : ∀ t ∈ ts, IsAlternative t)
    (hmark : ∀ t ∈ ts.dropLast, ¬ trailerMark <:+: t) {x : Text}
    (hx : x.Ends p closesAlternative) (hxmark : ¬ trailerMark <:+: x) (doc : Option Text) :
    (ts.map ("| ".toList ++ ·)).foldl extend ⟨x, doc⟩ =
      ⟨x ++ ts.flatMap (TypeExpr.bar ++ ·), doc⟩ := by
  induction ts generalizing x with
  | nil => simp
  | cons t ts ih =>
    have ht := (hts t List.mem_cons_self).ends
    rw [List.map_cons, List.foldl_cons,
      extend_of_not_infix (solid_of_closes hx hp) hxmark doc t, List.flatMap_cons,
      ← List.append_assoc x (TypeExpr.bar ++ t)]
    cases ts with
    | nil => simp
    | cons u ts =>
      rw [List.dropLast_cons_cons] at hmark
      obtain ⟨htmark, hmark⟩ := List.forall_mem_cons.1 hmark
      refine ih (fun s hs => hts s (List.mem_cons_of_mem t hs)) hmark ?_
        (not_infix_append_bar hx hxmark ht htmark)
      obtain ⟨c, v, rfl, hc⟩ := hx.first
      obtain ⟨w, d, rfl, hd⟩ := ht.last
      exact ⟨⟨c, v ++ (TypeExpr.bar ++ (w ++ [d])), rfl, hc⟩,
        ⟨c :: v ++ (TypeExpr.bar ++ w), d, by simp, hd⟩⟩

end MemberLine

theorem Text.flatMap_bar {ts : List Text} (hne : ts ≠ []) :
    ts.flatMap (TypeExpr.bar ++ ·) = ' ' :: barred ts := by
  induction ts with
  | nil => exact absurd rfl hne
  | cons t ts ih =>
    cases ts with
    | nil => simp [barred, joinWith_singleton, TypeExpr.bar]
    | cons u ts =>
      rw [List.flatMap_cons, ih (List.cons_ne_nil u ts), barred, barred, joinWith_cons_cons]
      simp [TypeExpr.bar]

/-- The lines of a member are put together. -/
theorem FieldHead.foldl_extend {f : FieldHead} (h : IsFieldName f.name) {ts : List Text}
    (hts : AreAlternatives ts) (hmark : ∀ t ∈ ts.dropLast, ¬ MemberLine.trailerMark <:+: t) :
    (ts.map ("| ".toList ++ ·)).foldl MemberLine.extend ⟨f.text, none⟩ =
      ⟨f.code (Text.barred ts), none⟩ := by
  have htext : ¬ MemberLine.trailerMark <:+: f.text := by
    intro hin
    have hmem : ' ' ∈ f.text := hin.subset (by decide)
    unfold text left at hmem
    rcases List.mem_append.1 hmem with hmem | hmem
    · rcases List.mem_append.1 hmem with hmem | hmem
      · exact absurd (h.char hmem) (by decide)
      · split at hmem
        · exact absurd hmem (by decide)
        · cases hmem
    · exact absurd hmem (by decide)
  rw [MemberLine.foldl_extend (fun _ => isBlank_of_isFree) hts.each hmark (ends_text h) htext,
    Text.flatMap_bar hts.ne_nil, code]

/-! ## The segments of lines -/

namespace Cutter

variable {s : Cutter} {doc : Option Text} {read : List (Text × Option Text)}

/-- A line of code is held after the blanks before it. -/
theorem Ready.hold_line (h : Ready s doc read) {b : Text} (hb : Text.blank b = true) {c : Char}
    (hblank : Text.isBlank c = false) (hquote : isQuoteMark c = false)
    (hc : c ∉ ['/', '\n', '\x7b', '\x7d', ';', '<', '>', '(', ')']) {u : Text} (hu : Holds u) :
    Holding (s.run (b ++ c :: u)) (c :: u) doc read := by
  rw [run_append, run_cons]
  exact ((h.blanks hb).hold_char hblank hquote hc).holds hu

end Cutter

/-- With any blanks before it, the code is one segment, and it leaves nothing open. -/
def Text.OneSegment (code : Text) : Prop :=
  ∀ b, blank b = true →
    (Segment.cut (b ++ code)).map Segment.content = [(code, none)] ∧ (b ++ code).Closed

/-- Code that is held at the end of a line is its segment. -/
theorem Text.oneSegment_of_holding {code : Text} (hsolid : code.Solid)
    (h : ∀ b, blank b = true → (Cutter.start.run (b ++ code)).Holding code none []) :
    OneSegment code := by
  intro b hb
  have hheld := h b hb
  have hdone : (Cutter.start.run (b ++ code)).done = [] := List.map_eq_nil_iff.1 hheld.done
  refine ⟨?_, ?_, hheld.angles, hheld.parens, (hheld.newline hsolid).doc⟩
  · rw [Segment.cut, Cutter.finish, hheld.mode]
    change ((Cutter.start.run (b ++ code)).flush.done.reverse).map Segment.content = _
    rw [hheld.done_flush hsolid, hdone]
    rfl
  · rw [hheld.mode]
    rfl

theorem FieldHead.oneSegment {f : FieldHead} (h : IsFieldName f.name) {t : Text}
    (ht : Cutter.Holds t) (hsolid : Text.Solid (f.text ++ t)) : (f.text ++ t).OneSegment := by
  obtain ⟨c, n, hname, hc⟩ := h.ends.first
  have hn : n.all isFree = true := by
    have hall := h.free
    rw [hname, List.all_cons, Bool.and_eq_true] at hall
    exact hall.2
  have hmark : Cutter.Holds (if f.optional then ['?'] else []) := by
    split
    · exact .plain (by decide)
    · exact .nil
  have htext : f.text = c :: (n ++ (if f.optional then ['?'] else []) ++ [':']) := by
    rw [text, left, hname]
    rfl
  have hholds : Cutter.Holds (n ++ (if f.optional then ['?'] else []) ++ [':']) :=
    (Cutter.Holds.append (.of_all (fun _ => .free) hn) hmark).append (.plain (by decide))
  refine Text.oneSegment_of_holding hsolid fun b hb => ?_
  rw [htext, List.cons_append]
  exact Cutter.ready_start.hold_line hb (isBlank_of_isFree hc) (not_isQuoteMark_of_isFree hc)
    (not_mem_of_class hc (by decide)) (hholds.append ht)

/-- The line of a member with a union on it. -/
theorem FieldHead.oneSegment_onOneLine {f : FieldHead} (h : IsFieldName f.name) {ts : List Text}
    (hts : AreAlternatives ts) : (Text.onOneLine f.text ts).OneSegment := by
  have hends := IsAlternative.ends_joinWith hts.ne_nil hts.each TypeExpr.bar
  have hspace : Cutter.Holds [' '] := .plain (by decide)
  refine oneSegment h (hspace.append (.joinWith_bar hts.ne_nil fun t ht => (hts.each t ht).holds))
    (solid_code h hends)

/-- The line of the name alone. -/
theorem FieldHead.oneSegment_text {f : FieldHead} (h : IsFieldName f.name) :
    f.text.OneSegment := by
  have hsolid := solid_of_closes (ends_text h) fun _ => isBlank_of_isFree
  have hone := oneSegment h (t := []) .nil (by rwa [List.append_nil])
  rwa [List.append_nil] at hone

/-- The line of an alternative. -/
theorem IsAlternative.oneSegment {t : Text} (h : IsAlternative t) :
    Text.OneSegment ("| ".toList ++ t) := by
  obtain ⟨u, c, hu, hc⟩ := h.ends.last
  have hends : Text.Ends (fun c => c = '|') closesAlternative ("| ".toList ++ t) :=
    ⟨⟨'|', ' ' :: t, rfl, rfl⟩, ⟨"| ".toList ++ u, c, by rw [hu]; simp, hc⟩⟩
  have hsolid : Text.Solid ("| ".toList ++ t) := solid_of_closes hends fun c hc => by
    obtain rfl := of_decide_eq_true hc
    decide
  have hspace : Cutter.Holds [' '] := .plain (by decide)
  exact Text.oneSegment_of_holding hsolid fun b hb => Cutter.ready_start.hold_line hb (c := '|')
    (by decide) (by decide) (by decide) (hspace.append h.holds)

end InterfaceForms

import InterfaceForms.Proofs.UnionLayouts
import InterfaceForms.Proofs.WrittenShapes

/-!
# Quoted keys

A member whose name is quoted is read from its line, and its name is what stands between the
quotation marks. The name may hold the signs that mean something elsewhere: the pass that cuts a
text, the search for a comment and the search for the colon all go past a literal. Only the test for
methods does not. It looks for an opening parenthesis in all that stands before the colon, so that a
member with one in its name is taken for a method and left out.

* `QuotedKey.member?_code`: the member in a line.
* `Declaration.ofText_quotedKey`: the member in a block.
-/

namespace InterfaceForms

/-- What may stand between the quotation marks of a name. -/
def IsKey (k : Text) : Prop := ∀ c ∈ k, c ≠ '"' ∧ c ≠ '\\' ∧ c ≠ '\n'

instance (k : Text) : Decidable (IsKey k) :=
  inferInstanceAs (Decidable (∀ c ∈ k, c ≠ '"' ∧ c ≠ '\\' ∧ c ≠ '\n'))

/-- What stands before the type of a member with a quoted name. -/
def quotedHead (k : Text) (optional : Bool) : FieldHead := ⟨TypeExpr.quoted k, optional⟩

/-! ## Types -/

/-- A type as it may be written in a member: one that is printed, or alternatives with bars between
them, and perhaps one before them. -/
inductive IsTypeText : Text → Prop
  | printed {t : TypeExpr} (h : t.WellFormed) : IsTypeText t.print
  | joined {ts : List Text} (hne : ts ≠ []) (h : ∀ t ∈ ts, IsAlternative t) :
    IsTypeText (Text.joinWith TypeExpr.bar ts)
  | barred {ts : List Text} (hne : ts ≠ []) (h : ∀ t ∈ ts, IsAlternative t) :
    IsTypeText (Text.barred ts)

namespace IsTypeText

variable {t : Text}

theorem ends (h : IsTypeText t) : t.Ends opensAlternative closesAlternative := by
  cases h with
  | printed h =>
    refine h.printed.ends.mono (fun c hc => ?_) fun c hc => ?_
    · have hblank : Text.isBlank c = false := Text.isBlank_of_class (by decide) hc
      simp [opensAlternative, hblank, ne_of_class hc (x := '/') (by decide)]
    · have hblank : Text.isBlank c = false := Text.isBlank_of_class (by decide) hc
      have hsigns : c ∉ [';', ',', '/', '|', '\x7b'] := not_mem_of_class hc (by decide)
      simp only [closesAlternative, hblank, List.contains_eq_mem, hsigns]
      rfl
  | joined hne h => exact IsAlternative.ends_joinWith hne h _
  | barred hne h => exact IsAlternative.ends_barred hne h

/-- The pass that cuts a text holds a type as it is. -/
theorem holds (h : IsTypeText t) : Cutter.Holds t := by
  cases h with
  | printed h => exact .of_code h.printed.code
  | joined hne h => exact .joinWith_bar hne fun t ht => (h t ht).holds
  | barred hne h =>
    have hbar : Cutter.Holds "| ".toList := .of_all (p := isPlain) (fun _ => .plain) (by decide)
    exact hbar.append (.joinWith_bar hne fun t ht => (h t ht).holds)

theorem uncommented (h : IsTypeText t) : t.Uncommented := by
  cases h with
  | printed h => exact h.printed.code.cutComment?
  | joined hne h => exact (Text.Whole.joinWith_bar hne fun t ht => (h t ht).whole).uncommented
  | barred hne h => exact (Text.Whole.barred hne fun t ht => (h t ht).whole).uncommented

theorem exists_shape (h : IsTypeText t) : ∃ shape, Shape.ofExpr t = .ok shape := by
  cases h with
  | printed h => exact ⟨_, Shape.ofExpr_print h⟩
  | joined hne h => exact Shape.exists_ofExpr_joinWith hne h
  | barred hne h => exact Shape.exists_ofExpr_barred hne h

end IsTypeText

/-! ## The member in a line -/

namespace QuotedKey

variable {k type : Text} {optional : Bool}

theorem isBlank_of_isQuoteMark {c : Char} (h : isQuoteMark c = true) : Text.isBlank c = false :=
  Text.isBlank_of_class (by decide) h

theorem bracketed_left (hk : IsKey k) :
    Bracketed (fun _ => true) (· ≠ ':') 0 (quotedHead k optional).left := by
  have hmark : Bracketed (fun _ => true) (· ≠ ':') 0 (if optional then ['?'] else []) := by
    cases optional with
    | false => exact .nil
    | true => exact .sign (by decide) (by decide) .nil
  have hliteral : Bracketed (fun _ => true) (· ≠ ':') 0 (TypeExpr.quoted k) :=
    .literal (by decide) (fun c hc => ⟨(hk c hc).1, (hk c hc).2.1, rfl⟩) .nil
  exact hliteral.append hmark

/-- The first colon outside of literals follows the name. -/
theorem cutTop?_code (hk : IsKey k) (type : Text) :
    Text.cutTop? ':' ((quotedHead k optional).code type) =
      some ((quotedHead k optional).left, ' ' :: type) := by
  rw [FieldHead.code, FieldHead.text, List.append_assoc]
  exact (bracketed_left hk).cutTop?_append (by decide) (' ' :: type)

theorem whole_text (hk : IsKey k) : (quotedHead k optional).text.Whole 0 := by
  have hliteral : Text.Whole 0 (TypeExpr.quoted k) :=
    .literal (by decide) fun c hc => ⟨(hk c hc).1, (hk c hc).2.1⟩
  have hmark : Text.Whole 0 (if optional then ['?'] else []) := by
    cases optional with
    | false => exact .nil
    | true => exact .char (by decide) rfl (by decide) (by decide)
  have hcolon : Text.Whole 0 [':'] := .char (by decide) rfl (by decide) (by decide)
  exact (hliteral.append hmark).append hcolon

theorem codeAndComment_code (hk : IsKey k) (htype : type.Uncommented) :
    Member.codeAndComment ((quotedHead k optional).code type) =
      ((quotedHead k optional).code type, none) := by
  have hspace : Text.Uncommented [' '] := (Text.Whole.space (d := 0)).uncommented
  have hcode : ((quotedHead k optional).code type).Uncommented :=
    (whole_text hk).uncommented.append (hspace.append htype)
  rw [Member.codeAndComment, hcode.cutComment?]

theorem ends_code {p : Char → Bool} (htype : type.Ends p closesAlternative) :
    ((quotedHead k optional).code type).Ends isQuoteMark closesAlternative := by
  obtain ⟨u, d, rfl, hd⟩ := htype.last
  exact ⟨⟨'"', _, rfl, by decide⟩,
    ⟨(quotedHead k optional).text ++ ' ' :: u, d, by simp [FieldHead.code], hd⟩⟩

theorem solid_code {p : Char → Bool} (htype : type.Ends p closesAlternative) :
    ((quotedHead k optional).code type).Solid :=
  solid_of_closes (ends_code htype) fun _ => isBlank_of_isQuoteMark

theorem bareLine_code {p : Char → Bool} (htype : type.Ends p closesAlternative) :
    Member.bareLine ((quotedHead k optional).code type) = (quotedHead k optional).code type := by
  have hsolid : ((quotedHead k optional).code type).Solid := solid_code htype
  have hdrop : Text.dropStart? "readonly ".toList ((quotedHead k optional).code type) = none := rfl
  simp only [Member.bareLine, hsolid.trim, hdrop, Option.getD_none, hsolid.trimStart]

theorem ends_quoted (k : Text) : (TypeExpr.quoted k).Ends isQuoteMark isQuoteMark :=
  .between (by decide) (by decide) k

theorem solid_quoted (k : Text) : (TypeExpr.quoted k).Solid :=
  .between (by decide) (by decide) k

theorem nameOf_left (k : Text) (optional : Bool) :
    Member.nameOf (quotedHead k optional).left = k := by
  have hmark : ∀ c : Char, (c = '?' : Bool) = true → isQuoteMark c = false := by
    intro c hc
    obtain rfl := of_decide_eq_true hc
    decide
  have hleft : Text.dropEndWhile (· = '?') (quotedHead k optional).left = TypeExpr.quoted k := by
    unfold FieldHead.left quotedHead
    cases optional with
    | true => exact (Text.dropEndWhile_append_of_all rfl).trans ((ends_quoted k).dropEndWhile hmark)
    | false => exact (congrArg _ (List.append_nil _)).trans ((ends_quoted k).dropEndWhile hmark)
  rw [Member.nameOf, hleft, (solid_quoted k).trim, Text.unquote?_quoted, Option.getD_some]

theorem endsWith_left (k : Text) (optional : Bool) :
    Text.endsWith '?' (quotedHead k optional).left = optional := by
  cases optional with
  | true => simp [FieldHead.left, quotedHead, Text.endsWith]
  | false => exact (congrArg _ (List.append_nil _)).trans ((ends_quoted k).endsWith (by decide))

theorem solid_left (k : Text) (optional : Bool) : (quotedHead k optional).left.Solid := by
  unfold FieldHead.left quotedHead
  cases optional with
  | true => exact (solid_quoted k).append_char (d := '?') (by decide) []
  | false => simpa using solid_quoted k

/-- Of all the signs that the name may hold only an opening parenthesis shows. -/
theorem contains_left (k : Text) (optional : Bool) :
    (quotedHead k optional).left.contains '(' = decide ('(' ∈ k) := by
  cases optional with
  | true => simp [FieldHead.left, quotedHead, TypeExpr.quoted]
  | false => simp [FieldHead.left, quotedHead, TypeExpr.quoted]

/-- The member is read from its line, unless it is taken for a method. -/
theorem member?_code (hk : IsKey k) (htype : IsTypeText type) {shape : Shape}
    (hshape : Shape.ofExpr type = .ok shape) (optional : Bool) :
    MemberLine.member? ⟨(quotedHead k optional).code type, none⟩ =
      .ok (if '(' ∈ k then none else some ⟨k, optional, type, none, shape⟩) := by
  have hends := htype.ends
  have hcode : Member.ofCode ((quotedHead k optional).code type) none =
      .ok (if '(' ∈ k then none else some ⟨k, optional, type, none, shape⟩) := by
    rw [Member.ofCode, cutTop?_code hk]
    simp only [(solid_left k optional).trim, (solid_left k optional).ne_nil, contains_left,
      FieldHead.rawTypeOf_type hends, hends.ne_nil, hshape, nameOf_left, endsWith_left]
    by_cases hparen : '(' ∈ k
    · simp [hparen]
    · simp only [hparen]
      rfl
  have hline : Member.ofLine ((quotedHead k optional).code type) =
      .ok (if '(' ∈ k then none else some ⟨k, optional, type, none, shape⟩) := by
    rw [Member.ofLine, bareLine_code hends, codeAndComment_code hk htype.uncommented]
    exact hcode
  rw [MemberLine.member?, hline]
  split
  · rfl
  · rfl

/-! ## The segment of a line -/

/-- The line of the member begins no declaration, and it is the line of a member. -/
theorem areMember {p : Char → Bool} (htype : type.Ends p closesAlternative) {X : List Segment}
    (hX : X.map Segment.content = [((quotedHead k optional).code type, none)]) :
    Segment.AreMember X ⟨(quotedHead k optional).code type, none⟩ := by
  have hstarts : MemberLine.startsMember ((quotedHead k optional).code type) = true := by
    simp [MemberLine.startsMember, FieldHead.code, FieldHead.text, FieldHead.left, quotedHead,
      TypeExpr.quoted]
  exact ⟨_, [], ⟨hX, List.forall_mem_nil _⟩,
    Header.ofLine?_of_sign (n := []) rfl (by decide) (by decide), hstarts,
    (ends_code htype).endsWith (by decide), rfl⟩

end QuotedKey

namespace Cutter

variable {s : Cutter} {doc : Option Text} {read : List (Text × Option Text)}

/-- A line of code may begin with a literal. -/
theorem Ready.hold_literal (h : Ready s doc read) {mark : Char} (hmark : isQuoteMark mark = true)
    {v : Text} (hv : ∀ c ∈ v, c ≠ mark ∧ c ≠ '\\' ∧ c ≠ '\n') :
    Holding (s.run (mark :: v ++ [mark])) (mark :: v ++ [mark]) doc read := by
  have hblank := QuotedKey.isBlank_of_isQuoteMark hmark
  have hstep : s.step mark = { s.add mark with mode := .literal mark } := by
    simp [step, h.mode, stepCode, hmark]
  rw [List.cons_append, run_cons, hstep, run_openLiteral hmark rfl hv]
  refine ⟨rfl, ⟨s.buffer.reverse, ?_, ?_⟩, ?_, ?_, h.angles, h.parens, h.doc, h.done⟩
  · have hbuffer := h.buffer
    simp only [Text.blank, List.all_reverse] at hbuffer ⊢
    exact hbuffer
  · simp [hold, add]
  · simp [hold, add, Text.blank, hblank]
  · simp [hold, add, hblank, h.buffer]

/-- The line of a member with a quoted name is held as it is. -/
theorem Ready.hold_quotedKey (h : Ready s doc read) {b : Text} (hb : Text.blank b = true)
    {k type : Text} (hk : IsKey k) (htype : IsTypeText type) (optional : Bool) :
    Holding (s.run (b ++ (quotedHead k optional).code type)) ((quotedHead k optional).code type)
      doc read := by
  have hmark : Holds (if optional then ['?'] else []) := by
    cases optional with
    | false => exact .nil
    | true => exact .plain (by decide)
  have hcolon : Holds ": ".toList := .of_all (p := isPlain) (fun _ => .plain) (by decide)
  have htext : (quotedHead k optional).code type =
      TypeExpr.quoted k ++ ((if optional then ['?'] else []) ++ ": ".toList ++ type) := by
    cases optional with
    | false => simp [FieldHead.code, FieldHead.text, FieldHead.left, quotedHead]
    | true => simp [FieldHead.code, FieldHead.text, FieldHead.left, quotedHead]
  rw [run_append, htext, run_append]
  exact ((h.blanks hb).hold_literal (by decide) hk).holds ((hmark.append hcolon).append htype.holds)

theorem Settled.closeBrace (h : s.Settled read) :
    Ready (s.step '\x7d') none ((['\x7d'], none) :: read) :=
  h.flush.step_closeBrace h.mode h.nested

end Cutter

/-! ## The member in a block -/

def Text.interfaceHead (name : Text) : Text := "interface ".toList ++ name ++ " \x7b".toList

/-- An interface with the body `body`. -/
def Text.interfaceOf (name body : Text) : Text := interfaceHead name ++ body ++ ['\x7d']

theorem Header.ofLine?_interfaceHead {name : Text} (hname : IsName name) :
    ofLine? (Text.interfaceHead name) = some ⟨name, ['\x7b']⟩ := by
  have hrest : Text.Solid ['\x7b'] := .singleton (by decide)
  have hline := ofLine?_of_word (.inl rfl) hname hrest (by decide)
  have htext : ("interface ".toList ++ name ++ " \x7b".toList : Text) =
      "interface".toList ++ ' ' :: (name ++ ' ' :: ['\x7b']) := by simp
  rw [← htext] at hline
  exact hline

/-- The segments of an interface whose body is one line of code. -/
theorem Segment.cut_interfaceOf {name code b e : Text} (hname : IsName name)
    (he : Text.blank e = true) (hsolid : code.Solid)
    (hheld : ∀ {s : Cutter} {read : List (Text × Option Text)}, s.Ready none read →
      (s.run (b ++ code)).Holding code none read) (close : Bool) :
    (cut (Text.interfaceOf name (b ++ code ++ terminator close ++ e))).map content =
      [(Text.interfaceHead name, none), (code, none), (['\x7d'], none)] := by
  have hheader : (Cutter.start.run (Text.interfaceHead name)).Ready none
      [(Text.interfaceHead name, none)] := Cutter.ready_start.header hname
  obtain ⟨hsettled, -⟩ := (hheld hheader).close hsolid close
  have hend := (hsettled.blanks he).closeBrace.settled.finish
  have htext : Text.interfaceOf name (b ++ code ++ terminator close ++ e) =
      Text.interfaceHead name ++ ((b ++ code) ++ (terminator close ++ (e ++ ['\x7d']))) := by
    simp only [Text.interfaceOf, List.append_assoc]
  rw [cut, htext, Cutter.run_append, Cutter.run_append _ (b ++ code),
    Cutter.run_append _ (terminator close), Cutter.run_append _ e]
  exact hend

/-- The section of a block with one line reads that line. -/
theorem Section.read_interface {name code : Text} (line : Nat) {x brace : Segment}
    (hx : Segment.AreMember [x] ⟨code, none⟩) (hbrace : brace.text = ['\x7d']) :
    (read ⟨⟨name, ['\x7b']⟩, line, [x, brace]⟩).result =
      .ok ⟨name, line, .block [⟨code, none⟩]⟩ := by
  have hblock := readBlock_areMember name [] [brace] hx
  rw [readBlock_end name _ [] hbrace] at hblock
  have hbody : (readBody ⟨⟨name, ['\x7b']⟩, line, [x, brace]⟩).result =
      .ok (.block [⟨code, none⟩]) := by
    have halias : (Header.mk name ['\x7b']).aliasExpr? = none := rfl
    rw [readBody]
    dsimp only
    rw [halias]
    dsimp only
    rw [Logged.map_eq]
    exact congrArg (Except.map SourceBody.block) hblock
  rw [read_eq, Logged.bind_result, hbody]
  rfl

namespace Declaration

/-- An interface whose body is the line of a member declares that member, or none where the line
declares none. -/
theorem ofText_of_line {t name code : Text} (hname : IsName name)
    (hcut : (Segment.cut t).map Segment.content =
      [(Text.interfaceHead name, none), (code, none), (['\x7d'], none)])
    (hline : ∀ X : List Segment, X.map Segment.content = [(code, none)] →
      Segment.AreMember X ⟨code, none⟩)
    {m? : Option Member} (hm : MemberLine.member? ⟨code, none⟩ = .ok m?) (options : Options) :
    (ofText options t).result = .ok [⟨name, .block m?.toList⟩] := by
  obtain ⟨s, tail, hsegments, hs, htail⟩ := List.map_eq_cons_iff.1 hcut
  obtain ⟨x, rest, rfl, hx, hrest⟩ := List.map_eq_cons_iff.1 htail
  obtain ⟨brace, nothing, rfl, hbrace, hnothing⟩ := List.map_eq_cons_iff.1 hrest
  obtain rfl := List.map_eq_nil_iff.1 hnothing
  have hmember := hline [x] (by rw [List.map_singleton, hx])
  have hclose : brace.text = ['\x7d'] := congrArg Prod.fst hbrace
  have hheader : Header.ofLine? s.text = some ⟨name, ['\x7b']⟩ := by
    have htext : s.text = Text.interfaceHead name := congrArg Prod.fst hs
    rw [htext]
    exact Header.ofLine?_interfaceHead hname
  have hbody : ∀ y ∈ [x, brace], Header.ofLine? y.text = none := by
    rw [List.forall_mem_cons, List.forall_mem_singleton, hclose]
    exact ⟨hmember.noHeaders x (List.mem_singleton.2 rfl),
      Header.ofLine?_of_sign (n := []) rfl (by decide) (by decide)⟩
  have hsections : Section.ofSegments (Segment.cut t) =
      Section.ofSegments (Segment.cut []) ++ [⟨⟨name, ['\x7b']⟩, s.line, [x, brace]⟩] := by
    rw [hsegments]
    exact Section.ofSegments_last hheader hbody
  have hsource : ofSource ⟨name, s.line, .block [⟨code, none⟩]⟩ = .ok ⟨name, .block m?.toList⟩ := by
    simp only [ofSource, List.mapM_cons, List.mapM_nil, hm]
    cases m? with
    | none => rfl
    | some m => rfl
  rw [ofText_addSection options hsections List.not_mem_nil
    (Section.read_interface s.line hmember hclose) rfl hsource]
  rfl

/-- **Quoted keys.** In a block, the line of a member with a quoted name declares the member with
that name, whether it is optional, and the shape of its type. The name may hold any characters but
quotation marks, backslashes, newlines and opening parentheses; with an opening parenthesis in it
the line declares nothing. -/
theorem ofText_quotedKey {k type : Text} (hk : IsKey k) (htype : IsTypeText type)
    (optional : Bool) :
    ∃ shape, Shape.ofExpr type = .ok shape ∧
      (∀ (name b e : Text) (close : Bool) (options : Options), IsName name →
        Text.blank b = true → Text.blank e = true →
        (ofText options (Text.interfaceOf name
            (b ++ (quotedHead k optional).code type ++ terminator close ++ e))).result =
          .ok [⟨name, .block (if '(' ∈ k then [] else [⟨k, optional, type, none, shape⟩])⟩]) ∧
      ('(' ∉ k → ∀ before owner line : Text, before.Closed →
        (Walk.start.after (Segment.cut before)).place = .block owner 0 →
        Text.Indented line ((quotedHead k optional).code type) →
        Text.AddsMember before owner [line] ⟨k, optional, type, none, shape⟩) := by
  obtain ⟨shape, hshape⟩ := htype.exists_shape
  have hmember := QuotedKey.member?_code hk htype hshape optional
  have hsolid : ((quotedHead k optional).code type).Solid := QuotedKey.solid_code htype.ends
  refine ⟨shape, hshape, fun name b e close options hname hb he => ?_,
    fun hparen before owner line hbefore hplace hline => ?_⟩
  · have hcut := Segment.cut_interfaceOf hname he hsolid
      (fun h => h.hold_quotedKey hb hk htype optional) close
    rw [ofText_of_line hname hcut (fun _ => QuotedKey.areMember htype.ends) hmember]
    split
    · rfl
    · rfl
  · rw [if_neg hparen] at hmember
    have hone : ((quotedHead k optional).code type).OneSegment :=
      Text.oneSegment_of_holding hsolid fun b hb =>
        Cutter.ready_start.hold_quotedKey hb hk htype optional
    have hwritten : Text.Written [line] [(quotedHead k optional).code type] :=
      ⟨.cons hline .nil, List.forall_mem_singleton.2 hone, List.cons_ne_nil _ _⟩
    exact hwritten.addsMember hbefore hplace (fun _ => QuotedKey.areMember htype.ends) hmember

/-- A name with all the signs but quotation marks of its own kind and opening parentheses. -/
def signsKey : Text := "a: b?; \x7b|\x7d // [<)>] \x27, \x60=> ".toList

theorem ofText_quotedKey_signs :
    IsKey signsKey ∧ IsTypeText (Text.joinWith TypeExpr.bar choices) ∧ '(' ∉ signsKey ∧
    (ofText {} (Text.interfaceOf ['A'] ("\n  ".toList ++
        (quotedHead signsKey true).code (Text.joinWith TypeExpr.bar choices) ++ terminator true ++
          ['\n']))).result =
      .ok [⟨['A'], .block [⟨signsKey, true, Text.joinWith TypeExpr.bar choices, none, .union
        [.literal "a | b".toList, .reference "Item[]".toList, .literal "c // d".toList]⟩]⟩] ∧
    Text.AddsMember openText "Form".toList
      ["  ".toList ++ (quotedHead signsKey true).code (Text.joinWith TypeExpr.bar choices)]
      ⟨signsKey, true, Text.joinWith TypeExpr.bar choices, none, .union
        [.literal "a | b".toList, .reference "Item[]".toList, .literal "c // d".toList]⟩ := by
  have hk : IsKey signsKey := by decide
  have htype : IsTypeText (Text.joinWith TypeExpr.bar choices) :=
    .joined areAlternatives_choices.ne_nil areAlternatives_choices.each
  have hparen : '(' ∉ signsKey := by decide
  have hclosed : openText.Closed :=
    ⟨by decide +kernel, by decide +kernel, by decide +kernel, by decide +kernel⟩
  have hunion : Shape.ofExpr (Text.joinWith TypeExpr.bar choices) = .ok (.union
      [.literal "a | b".toList, .reference "Item[]".toList, .literal "c // d".toList]) := by
    decide +kernel
  obtain ⟨shape, hshape, hblock, hadds⟩ := ofText_quotedKey hk htype true
  obtain rfl := Except.ok.inj (hunion.symm.trans hshape)
  have hresult := hblock ['A'] "\n  ".toList ['\n'] true {} ⟨by decide, by decide⟩ (by decide)
    (by decide)
  rw [if_neg hparen] at hresult
  exact ⟨hk, htype, hparen, hresult,
    hadds hparen openText _ _ hclosed (by decide +kernel) ⟨"  ".toList, by decide, rfl⟩⟩

/-- With an opening parenthesis in its name, a member is left out. -/
theorem ofText_quotedKey_parenthesis :
    IsKey "a(b)".toList ∧ IsTypeText "string".toList ∧
    Shape.ofExpr "string".toList = .ok (.named "string".toList) ∧
    (ofText {} "interface A \x7b\n  \"a(b)\": string;\n\x7d\n".toList).result =
      .ok [⟨['A'], .block []⟩] := by
  have htype : IsTypeText (TypeExpr.primitive .string).print := .printed (.primitive .string)
  exact ⟨by decide, htype, by decide +kernel, by decide +kernel⟩

end Declaration

end InterfaceForms

import InterfaceForms.Declaration
import InterfaceForms.Proofs.PrintedDeclarations
import InterfaceForms.Proofs.PrintedShapes

/-!
# Printed members

The line of a printed member is read back: its name and question mark before the colon, its type
after it, and the comment at its end or on the line before.

* `FieldDecl.member?_lineText`: the member in the line of a printed member.
-/

namespace InterfaceForms

namespace FieldDecl

/-- What is read from a printed member. -/
def member (f : FieldDecl) : Member :=
  ⟨f.name, f.optional, f.type.print, f.note.text?, f.type.shape⟩

/-- The comment at the end of the line. -/
def comment (f : FieldDecl) : Option Text :=
  match f.note with
  | .after comment => some comment
  | _ => none

/-- What stands before the colon. -/
def left (f : FieldDecl) : Text := f.name ++ if f.optional then ['?'] else []

theorem code_eq_left (f : FieldDecl) : f.code = f.left ++ ':' :: ([' '] ++ f.type.print) := by
  simp [code, left]

/-- A sign that is not blank follows the name. -/
theorem exists_afterName (f : FieldDecl) :
    ∃ c u, f.afterName = c :: u ∧ (c = '?' ∨ c = ':') := by
  unfold afterName
  split
  · exact ⟨'?', _, rfl, .inl rfl⟩
  · exact ⟨':', _, rfl, .inr rfl⟩

namespace WellFormed

variable {f : FieldDecl}

/-! ## The line -/

theorem solid_lineText (h : f.WellFormed) (l : Layout) : (f.lineText l).Solid := by
  have hsolid := h.solid
  have hnote := h.note
  unfold lineText tail
  split
  · rename_i comment hcomment
    rw [hcomment] at hnote
    exact Cutter.solid_append_trailer hsolid hnote.1 _
  · rwa [List.append_nil]

theorem bareLine (h : f.WellFormed) (l : Layout) :
    Member.bareLine (f.lineText l) = f.lineText l := by
  have hsolid := h.solid_lineText l
  have hdrop : Text.dropStart? "readonly ".toList (f.lineText l) = none := by
    obtain ⟨c, u, hafter, hc⟩ := f.exists_afterName
    have hword : "readonly ".toList = "readonly".toList ++ [' '] := by decide
    rw [lineText, code_eq, hafter, List.append_assoc, List.cons_append, hword]
    rcases hc with rfl | rfl
    · exact Text.dropStart?_of_sign (by decide) h.name.chars (by decide) (by decide) (by decide)
    · exact Text.dropStart?_of_sign (by decide) h.name.chars (by decide) (by decide) (by decide)
  simp only [Member.bareLine, hsolid.trim, hdrop, Option.getD_none, hsolid.trimStart]

/-- The comment is cut off, and with it the blanks before it. -/
theorem codeAndComment_trailer (h : f.WellFormed) {comment : Text} (hcomment : IsLine comment)
    {e : Text} (hblank : Text.blank e = true) (he : Code [] e) :
    Member.codeAndComment (f.code ++ (e ++ Cutter.trailer comment)) = (f.code, some comment) := by
  have htext : f.code ++ (e ++ Cutter.trailer comment) =
      (f.code ++ (e ++ [' '])) ++ '/' :: '/' :: ' ' :: comment := by
    simp [Cutter.trailer]
  have hmarks : Text.cutComment? .start ('/' :: '/' :: ' ' :: comment) =
      some ([], ' ' :: comment) := rfl
  have hspace : Code [] (e ++ [' ']) := he.append (.of_all (by decide))
  have hcut : Text.cutComment? .start (f.code ++ (e ++ Cutter.trailer comment)) =
      some (f.code ++ (e ++ [' ']), ' ' :: comment) := by
    rw [htext, (h.code.append hspace).cutComment?, hmarks]
    simp
  have hend : Text.blank (e ++ [' ']) = true := by
    simp only [Text.blank, List.all_append, Bool.and_eq_true] at hblank ⊢
    exact ⟨hblank, by decide⟩
  have hwords := Cutter.trim_comment hcomment
  rw [List.reverse_reverse] at hwords
  simp only [Member.codeAndComment, hcut, hwords, h.solid.trimEnd_append hend, hcomment.ne_nil,
    if_false]

theorem codeAndComment (h : f.WellFormed) (l : Layout) :
    Member.codeAndComment (f.lineText l) = (f.code, f.comment) := by
  have hnone : Member.codeAndComment f.code = (f.code, none) := by
    have hcut := h.code.cutComment? []
    rw [List.append_nil] at hcut
    simp only [Member.codeAndComment, hcut]
    rfl
  have hwell := h.note
  unfold lineText tail comment
  cases hnote : f.note with
  | none => simpa only [List.append_nil] using hnone
  | before comment => simpa only [List.append_nil] using hnone
  | after comment =>
    rw [hnote] at hwell
    cases l.closeMembers with
    | true => exact h.codeAndComment_trailer hwell.1 (e := []) rfl .nil
    | false =>
      exact h.codeAndComment_trailer hwell.1 (e := [' ']) (by decide) (.of_all (by decide))

/-! ## The code -/

theorem cutTop? (h : f.WellFormed) :
    Text.cutTop? ':' f.code = some (f.left, [' '] ++ f.type.print) := by
  have hname : Code [':'] f.name := h.name.code.mono (by decide)
  have hleft : Code [':'] f.left := by
    refine hname.append ?_
    split
    · exact .of_all (by decide)
    · exact .nil
  rw [code_eq_left, hleft.cutTop? (by decide) List.mem_cons_self, Text.cutTop?_sep]
  simp

theorem ends_left (h : f.WellFormed) :
    f.left.Ends Header.startsName (fun c => isNameChar c || c = '?') := by
  have hname : f.name.Ends Header.startsName (fun c => isNameChar c || c = '?') :=
    h.name.ends.mono (fun _ hc => hc) fun c hc => by simp [hc]
  unfold left
  split
  · exact hname.append_char (d := '?') (by decide) []
  · rwa [List.append_nil]

theorem nameOf_left (h : f.WellFormed) : Member.nameOf f.left = f.name := by
  have hmark : ∀ c : Char, (c = '?' : Bool) = true → isNameChar c = false := by
    intro c hc
    obtain rfl := of_decide_eq_true hc
    decide
  have hleft : Text.dropEndWhile (· = '?') f.left = f.name := by
    unfold left
    split
    · rw [Text.dropEndWhile_append_of_all (by decide), h.name.ends.dropEndWhile hmark]
    · rw [List.append_nil, h.name.ends.dropEndWhile hmark]
  have hquote : Text.unquote? f.name = none := by
    obtain ⟨c, u, hname, hc⟩ := h.name.head
    rw [hname, Text.unquote?_of_head hc]
  simp only [Member.nameOf, hleft, h.name.solid.trim, hquote, Option.getD_none]

theorem endsWith_left (h : f.WellFormed) : Text.endsWith '?' f.left = f.optional := by
  cases hopt : f.optional with
  | true => simp [left, hopt, Text.endsWith]
  | false =>
    have hleft : f.left = f.name := by simp [left, hopt]
    rw [hleft]
    exact h.name.ends.endsWith (by decide)

theorem rawTypeOf (h : f.WellFormed) : Member.rawTypeOf ([' '] ++ f.type.print) = f.type.print := by
  have hends := h.type.printed.ends
  have hsolid := solid_of_ends hends
  have hmark : ∀ c : Char, (c = ';' || c = ',') = true → closesType c = false := by
    intro c hc
    simp only [Bool.or_eq_true, decide_eq_true_eq] at hc
    rcases hc with rfl | rfl
    · decide
    · decide
  have htrim : Text.trim ([' '] ++ f.type.print) = f.type.print := hsolid.trim_space
  rw [Member.rawTypeOf, htrim, hends.dropEndWhile hmark, hsolid.trim]

theorem ofCode (h : f.WellFormed) (description : Option Text) :
    Member.ofCode f.code description =
      .ok (some ⟨f.name, f.optional, f.type.print, description, f.type.shape⟩) := by
  have hends := h.ends_left
  have hsolid : Text.Solid f.left := by
    refine hends.mono (fun c hc => ?_) fun c hc => ?_
    · simp [Text.isBlank_of_isNameChar (Text.isNameChar_of_startsName hc)]
    · simp only [Bool.or_eq_true, decide_eq_true_eq] at hc
      rcases hc with hc | rfl
      · simp [Text.isBlank_of_isNameChar hc]
      · decide
  have hparen : f.left.contains '(' = false := by
    have hname : '(' ∉ f.name := fun hmem => absurd (h.name.char hmem) (by decide)
    cases hopt : f.optional <;> simp [left, hopt, hname]
  have hne := h.type.printed.ends.ne_nil
  simp only [Member.ofCode, h.cutTop?, hsolid.trim, h.rawTypeOf, hends.ne_nil, hparen, hne,
    Shape.ofExpr_print h.type, h.nameOf_left, h.endsWith_left]
  rfl

end WellFormed

theorem or_comment (f : FieldDecl) : f.comment.or f.doc = f.note.text? := by
  unfold comment doc
  cases f.note <;> rfl

theorem ofLine_lineText {f : FieldDecl} (h : f.WellFormed) (l : Layout) :
    Member.ofLine (f.lineText l) =
      .ok (some ⟨f.name, f.optional, f.type.print, f.comment, f.type.shape⟩) := by
  simp only [Member.ofLine, h.bareLine l, h.codeAndComment l, h.ofCode]

/-- The line of a printed member, with the comment before it, gives the member. -/
theorem member?_lineText {f : FieldDecl} (h : f.WellFormed) (l : Layout) :
    MemberLine.member? ⟨f.lineText l, f.doc⟩ = .ok (some f.member) := by
  rw [MemberLine.member?, ofLine_lineText h l, member, ← or_comment]
  rfl

end FieldDecl

end InterfaceForms

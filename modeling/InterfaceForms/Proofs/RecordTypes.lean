import InterfaceForms.Proofs.Choices

/-!
# Record types

A record with bracketed type arguments is read as that record, however its key and its value are
nested, and an array of it as an array with that record as its element. This fails if there is an
arrow in the arguments: the search for the sign that ends them takes the `>` of the arrow for it,
so that what is read is a name or a choice.

* `Shape.ofExpr_recordOf`: which records are read, by themselves and as elements of arrays.
-/

namespace InterfaceForms

namespace Text

/-- A record type as it is written. -/
def recordOf (key value : Text) : Text :=
  ['R', 'e', 'c', 'o', 'r', 'd', '<'] ++ (key ++ ", ".toList ++ value) ++ ['>']

variable {key value tail : Text}

theorem recordOf_ends (key value : Text) :
    (recordOf key value).Ends opensAlternative closesAlternative :=
  .between (c := 'R') (d := '>') (by decide) (by decide) _

theorem recordOf_array_ends (key value : Text) :
    (recordOf key value ++ ['[', ']']).Ends opensAlternative closesAlternative :=
  (recordOf_ends key value).append_char (by decide) ['[']

theorem dropStart?_recordOf (key value tail : Text) :
    dropStart? "Record<".toList (recordOf key value ++ tail) =
      some ((key ++ ", ".toList ++ value) ++ '>' :: tail) := by
  have hword : "Record<".toList = ['R', 'e', 'c', 'o', 'r', 'd', '<'] := by decide
  rw [dropStart?_eq_some, hword, recordOf]
  simp only [List.append_assoc, List.cons_append, List.nil_append]

theorem dropArrayMark?_append (t : Text) : dropArrayMark? (t ++ ['[', ']']) = some t := by
  simp [dropArrayMark?]

theorem dropArrayMark?_recordOf (key value : Text) :
    dropArrayMark? (recordOf key value) = none := by
  rw [dropArrayMark?, recordOf, List.reverse_concat]
  rfl

end Text

namespace Bracketed

variable {lit : Char → Bool} {m n : Nat} {key value : Text}

theorem arguments {top : Char → Bool} (hkey : Bracketed lit top m key)
    (hvalue : Bracketed lit (fun _ => true) n value) :
    Bracketed lit (fun _ => true) (m + n) (key ++ ", ".toList ++ value) :=
  ((hkey.mono fun _ _ => rfl).append (.of_all (by decide))).append hvalue

theorem recordOf {top : Char → Bool} (hkey : Bracketed lit top m key)
    (hvalue : Bracketed lit (fun _ => true) n value) :
    Bracketed lit (· ≠ '|') (m + n) (Text.recordOf key value) := by
  have hword : Bracketed lit (· ≠ '|') 0 ['R', 'e', 'c', 'o', 'r', 'd'] := .of_all (by decide)
  have hargs : Bracketed lit (· ≠ '|') (m + n + 0)
      ('<' :: (key ++ ", ".toList ++ value) ++ '>' :: []) :=
    .brackets (by decide) (hkey.arguments hvalue) .nil
  have htext := hword.append hargs
  rw [Nat.zero_add] at htext
  rw [Text.recordOf, List.append_assoc]
  exact htext

/-- The sign that ends the arguments is found if there is no arrow in them. Otherwise another one is
found before it. -/
theorem closeAngle?_arguments {top : Char → Bool} {t : Text} {k : Nat} (h : Bracketed lit top k t)
    (tail : Text) :
    (k = 0 → Text.closeAngle? .start 0 (t ++ '>' :: tail) = some (t, tail)) ∧
    (0 < k → ∃ inner rest, Text.closeAngle? .start 0 (t ++ '>' :: tail) =
      some (inner, rest ++ '>' :: tail)) := by
  obtain ⟨hpass, hclose⟩ := h.passes_or_closes 0
  constructor
  · rintro rfl
    rw [hpass (Nat.le_refl 0)]
    simp [Text.closeAngle?, Quoting.start, Quoting.inside]
  · intro hk
    obtain ⟨inner, rest, hfound⟩ := hclose hk
    exact ⟨inner, rest, hfound _⟩

end Bracketed

namespace Shape

open Text

variable {lit : Char → Bool} {m n : Nat} {key value : Text}

theorem ofRecordArguments?_bracketed (hkey : Bracketed lit (· ≠ ',') 0 key)
    (hkeyne : blank key = false) (hvaluene : blank value = false) :
    ofRecordArguments? (key ++ ", ".toList ++ value) = some (.record (trim key) (trim value)) := by
  have hcut : cutTop? ',' (key ++ ", ".toList ++ value) = some (key, ' ' :: value) := by
    rw [List.append_assoc]
    exact hkey.cutTop?_append (by decide) (' ' :: value)
  have hspace : blank (' ' :: value) = false := hvaluene
  have htrim : trim (' ' :: value) = trim value := trim_append (b := [' ']) (by decide) value
  rw [ofRecordArguments?, hcut]
  simp [hkeyne, hspace, htrim]

/-- A text that begins with `Record<` and ends in another sign is an array or a name, if the sign
that ends the arguments is found before the end. -/
theorem ofSingle_of_closed {t args inner rest : Text}
    (hstart : dropStart? "Record<".toList t = some args)
    (hclose : closeAngle? .start 0 args = some (inner, rest)) (hrest : blank rest = false) :
    ofSingle t = .ok (ofArrayOrName t) := by
  rw [ofSingle, hstart]
  simp [hclose, hrest]

theorem ofSingle_recordOf (hkey : Bracketed lit (· ≠ ',') m key)
    (hvalue : Bracketed lit (fun _ => true) n value) (hkeyne : blank key = false)
    (hvaluene : blank value = false) :
    ofSingle (recordOf key value) = .ok (if m + n = 0 then .record (trim key) (trim value)
      else .named (recordOf key value)) := by
  obtain ⟨hfound, hearly⟩ := (hkey.arguments hvalue).closeAngle?_arguments []
  have hstart := dropStart?_recordOf key value []
  rw [List.append_nil] at hstart
  split
  · rename_i hzero
    obtain ⟨rfl, rfl⟩ := Nat.add_eq_zero_iff.1 hzero
    rw [ofSingle, hstart]
    dsimp only
    rw [hfound rfl]
    dsimp only
    rw [if_pos (show blank [] = true from rfl), ofRecordArguments?_bracketed hkey hkeyne hvaluene]
  · rename_i hpos
    obtain ⟨inner, rest, hclose⟩ := hearly (Nat.pos_of_ne_zero hpos)
    have hrest : blank (rest ++ ['>']) = false :=
      not_blank_of_mem (c := '>') (by simp) (by decide)
    rw [ofSingle_of_closed hstart hclose hrest, ofArrayOrName, dropArrayMark?_recordOf]

theorem ofSingle_recordOf_array (hkey : Bracketed lit (· ≠ ',') m key)
    (hvalue : Bracketed lit (fun _ => true) n value) :
    ofSingle (recordOf key value ++ ['[', ']']) = .ok (.array (recordOf key value)) := by
  obtain ⟨hfound, hearly⟩ := (hkey.arguments hvalue).closeAngle?_arguments ['[', ']']
  have hstart := dropStart?_recordOf key value ['[', ']']
  have hopen : ∃ inner rest, closeAngle? .start 0
      ((key ++ ", ".toList ++ value) ++ ['>', '[', ']']) = some (inner, rest) ∧
        blank rest = false := by
    rcases Nat.eq_zero_or_pos (m + n) with hzero | hpos
    · exact ⟨_, _, hfound hzero, by decide⟩
    · obtain ⟨inner, rest, hclose⟩ := hearly hpos
      exact ⟨inner, _, hclose, not_blank_of_mem (c := '>') (by simp) (by decide)⟩
  obtain ⟨inner, rest, hclose, hrest⟩ := hopen
  have hstrip : stripParens (recordOf key value) = recordOf key value := by
    have htrim := (solid_of_alternatives (recordOf_ends key value)).trim
    rw [stripParens_of_bare (by rw [htrim]; rfl), htrim]
  rw [ofSingle_of_closed hstart hclose hrest, ofArrayOrName, dropArrayMark?_append]
  exact congrArg (fun t => Except.ok (Shape.array t)) hstrip

/-- A record with bracketed arguments is read as that record, and an array of it as an array of
that record, if there is no arrow in the arguments. With an arrow neither is. -/
theorem ofExpr_recordOf (hkey : Bracketed lit (· ≠ ',') m key)
    (hvalue : Bracketed lit (fun _ => true) n value) (hkeyne : blank key = false)
    (hvaluene : blank value = false) :
    (m + n = 0 → ofExpr (recordOf key value) = .ok (.record (trim key) (trim value)) ∧
      ofExpr (recordOf key value ++ ['[', ']']) = .ok (.array (recordOf key value))) ∧
    (0 < m + n → ∀ key' value', ofExpr (recordOf key value) ≠ .ok (.record key' value') ∧
      ∀ item, ofExpr (recordOf key value ++ ['[', ']']) = .ok (.array item) →
        ofExpr item ≠ .ok (.record key' value')) := by
  have hends := recordOf_ends key value
  have hends' := recordOf_array_ends key value
  have hsingle := ofSingle_recordOf hkey hvalue hkeyne hvaluene
  have hsingle' := ofSingle_recordOf_array hkey hvalue
  constructor
  · intro hzero
    have hwhole := hkey.recordOf hvalue
    rw [hzero] at hwhole
    have hbrackets : Bracketed lit (· ≠ '|') (0 + 0) ['[', ']'] := .brackets (by decide) .nil .nil
    have hrecord : cutTop? '|' (recordOf key value) = none :=
      hwhole.cutTop?_eq_none (by decide) (by decide)
    have harray : cutTop? '|' (recordOf key value ++ ['[', ']']) = none :=
      (hwhole.append hbrackets).cutTop?_eq_none (by decide) (by decide)
    rw [if_pos hzero] at hsingle
    exact ⟨(ofExpr_of_uncut hends rfl rfl hrecord).trans hsingle,
      (ofExpr_of_uncut hends' rfl rfl harray).trans hsingle'⟩
  · intro hpos key' value'
    have hnot : ofExpr (recordOf key value) ≠ .ok (.record key' value') := by
      intro hshape
      by_cases hcut : cutTop? '|' (recordOf key value) = none
      · rw [ofExpr_of_uncut hends rfl rfl hcut, hsingle, if_neg (by omega)] at hshape
        cases hshape
      · cases isChoice_of_cut hends rfl rfl hcut hshape
    refine ⟨hnot, fun item hitem => ?_⟩
    by_cases hcut : cutTop? '|' (recordOf key value ++ ['[', ']']) = none
    · rw [ofExpr_of_uncut hends' rfl rfl hcut, hsingle'] at hitem
      cases hitem
      exact hnot
    · cases isChoice_of_cut hends' rfl rfl hcut hitem

/-- An object whose one field is an array of a choice, with an angle bracket in a literal. -/
def rowsValue : Text := "\x7b rows: (\"a>b\" | Row)[] \x7d".toList

theorem bracketed_rowsValue : Bracketed (fun _ => true) (fun _ => true) 0 rowsValue := by
  have htext : rowsValue = '\x7b' :: (" rows: ".toList ++
      ('(' :: ('"' :: "a>b".toList ++ '"' :: " | Row".toList) ++ ')' :: ('[' :: [] ++ [']', ' '])))
        ++ ['\x7d'] := by decide
  have hchoice : Bracketed (fun _ => true) (fun _ => true) 0
      ('"' :: "a>b".toList ++ '"' :: " | Row".toList) :=
    .literal (by decide) (by decide) (.of_all (by decide))
  have harray : Bracketed (fun _ => true) (fun _ => true) (0 + 0) ('[' :: [] ++ [']', ' ']) :=
    .brackets (by decide) .nil (.of_all (by decide))
  have hword : Bracketed (fun _ => true) (fun _ => true) 0 " rows: ".toList :=
    .of_all (by decide)
  rw [htext]
  exact .brackets (n := 0) (by decide) (hword.append (.brackets (by decide) hchoice harray)) .nil

theorem ofExpr_recordOf_rows :
    Bracketed (fun _ => true) (· ≠ ',') 0 "string".toList ∧
    Bracketed (fun _ => true) (fun _ => true) 0 rowsValue ∧
    ofExpr (recordOf "string".toList rowsValue) = .ok (.record "string".toList rowsValue) ∧
    ofExpr (recordOf "string".toList rowsValue ++ ['[', ']']) =
      .ok (.array (recordOf "string".toList rowsValue)) := by
  have hkey : Bracketed (fun _ => true) (· ≠ ',') 0 "string".toList := .of_all (by decide)
  have hshape := (ofExpr_recordOf hkey bracketed_rowsValue (by decide) (by decide)).1 rfl
  rw [show trim "string".toList = "string".toList by decide,
    show trim rowsValue = rowsValue by decide] at hshape
  exact ⟨hkey, bracketed_rowsValue, hshape⟩

/-- A function without parameters and without a result. -/
def actionValue : Text := "() => void".toList

theorem bracketed_actionValue : Bracketed (fun _ => true) (fun _ => true) 1 actionValue := by
  have htext : actionValue = '(' :: [] ++ ')' :: ' ' :: '=' :: '>' :: " void".toList := by decide
  have harrow : Bracketed (fun _ => true) (fun _ => true) (0 + 1) ('=' :: '>' :: " void".toList) :=
    .arrow rfl (.of_all (by decide))
  rw [htext]
  exact .brackets (m := 0) (by decide) .nil (.sign (by decide) rfl harrow)

/-- A record of functions is a name, and so is an element of an array of such records. -/
theorem ofExpr_recordOf_actions :
    Bracketed (fun _ => true) (· ≠ ',') 0 "string".toList ∧
    Bracketed (fun _ => true) (fun _ => true) 1 actionValue ∧
    recordOf "string".toList actionValue = "Record<string, () => void>".toList ∧
    ofExpr "Record<string, () => void>".toList =
      .ok (.named "Record<string, () => void>".toList) ∧
    ofExpr "Record<string, () => void>[]".toList =
      .ok (.array "Record<string, () => void>".toList) := by
  refine ⟨.of_all (by decide), bracketed_actionValue, ?_, ?_, ?_⟩
  all_goals decide +kernel

end Shape

end InterfaceForms

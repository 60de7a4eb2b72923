import InterfaceForms.Proofs.OptionalFields

/-!
# A field made present

Making a field present writes the whole object anew: its entries are moved out one field of the
schema after another, the new field among them, and what is left follows. No entry is lost or
written twice on the way, and making the field absent again gives back what there was.

* `Edit.moveFields`: the object written anew, one field after another.
* `Edit.insertField_eq_moveFields`: that is the object which an edit leaves.
* `Edit.setOptional_present`: what a field made present, and then absent, does to an object.
-/

namespace InterfaceForms.Edit

/-! ## Entries moved one after another -/

/-- Writes the field of the given name, which is the new one or is moved out of what is left.
The state is what has been written and what is left. -/
def moveField (field : Text) (value : Value) (state : Entries Value × Entries Value)
    (name : Text) : Entries Value × Entries Value :=
  if name = field then (Entries.insert name value state.1, state.2)
  else match Entries.get? name state.2 with
    | some v => (Entries.insert name v state.1, Entries.erase name state.2)
    | none => state

/-- The object with a new field, written in the order of the names. -/
def moveFields (names : List Text) (field : Text) (value : Value) (entries : Entries Value) :
    Entries Value :=
  let (written, left) := names.foldl (moveField field value) ([], entries)
  Entries.insertAll written left

section Move

variable {names : List Text} {field : Text} {value : Value} {entries : Entries Value}

/-- The value that a name has in the new object. -/
def newValue? (field : Text) (value : Value) (entries : Entries Value) (name : Text) :
    Option Value :=
  if name = field then some value else Entries.get? name entries

/-- The state after some of the names: they are written with their values in the new object, and
the entries of all other names are left. -/
def afterNames (field : Text) (value : Value) (entries : Entries Value) (names : List Text) :
    Entries Value × Entries Value :=
  (Entries.ofList (select names (newValue? field value entries)),
    entries.filter fun entry => !names.contains entry.1)

theorem afterNames_eq : afterNames field value entries names =
    (Entries.ofList (select names (newValue? field value entries)),
      entries.filter fun entry => entry.1 ∉ names) := by
  simp [afterNames]

theorem select_concat (name : Text) (value? : Text → Option Value) :
    select (names ++ [name]) value? =
      select names value? ++ ((value? name).map fun v => (name, v)).toList := by
  rw [select, List.filterMap_append]
  cases hvalue : value? name <;> simp [select, hvalue]

theorem filter_concat (name : Text) :
    entries.filter (fun entry => entry.1 ∉ names ++ [name]) =
      (entries.filter fun entry => entry.1 ∉ names).filter fun entry => entry.1 ≠ name := by
  rw [List.filter_filter]
  refine List.filter_congr fun entry _ => ?_
  by_cases hentry : entry.1 = name <;> simp [hentry]

theorem not_mem_keys_filter {name : Text} (h : name ∈ names ∨ name ∉ Entries.keys entries) :
    name ∉ Entries.keys (entries.filter fun entry => entry.1 ∉ names) := by
  rw [← Entries.get?_eq_none_iff, get?_filter_not_mem]
  split
  · rfl
  · rename_i hname
    exact Entries.get?_eq_none_iff.2 (h.resolve_left hname)

theorem moveField_afterNames (hkeys : (Entries.keys entries).Nodup)
    (hfield : field ∉ Entries.keys entries) (name : Text) :
    moveField field value (afterNames field value entries names) name =
      afterNames field value entries (names ++ [name]) := by
  have hleft : (entries.filter fun entry => entry.1 ∉ names ++ [name]) =
      Entries.erase name (entries.filter fun entry => entry.1 ∉ names) := by
    rw [filter_concat, Entries.erase_eq_filter]
    exact hkeys.sublist (List.filter_sublist.map _)
  simp only [moveField, afterNames_eq, select_concat, hleft]
  by_cases hname : name = field
  · subst hname
    have hnew : newValue? name value entries name = some value := if_pos rfl
    rw [if_pos rfl, hnew, Entries.erase_of_not_mem (not_mem_keys_filter (.inr hfield))]
    exact congrArg (·, _) (Entries.ofList_concat _ (name, value)).symm
  · have hnew : newValue? field value entries name = Entries.get? name entries := if_neg hname
    rw [if_neg hname, hnew, get?_filter_not_mem]
    cases hget : Entries.get? name entries with
    | none =>
      have hgone : name ∉ Entries.keys (entries.filter fun entry => entry.1 ∉ names) :=
        not_mem_keys_filter (.inr (Entries.get?_eq_none_iff.1 hget))
      rw [ite_self, Entries.erase_of_not_mem hgone, Option.map_none, Option.toList_none,
        List.append_nil]
    | some v =>
      by_cases hmem : name ∈ names
      · -- the name comes a second time: its entry has been moved, and nothing is written again
        have hwritten : Entries.get? name
            (Entries.ofList (select names (newValue? field value entries))) = some v := by
          rw [get?_ofList_select, if_pos hmem, hnew, hget]
        rw [if_pos hmem, Entries.erase_of_not_mem (not_mem_keys_filter (.inl hmem)),
          Option.map_some, Option.toList_some, Entries.ofList_concat,
          Entries.insert_of_get? hwritten]
      · rw [if_neg hmem, Option.map_some, Option.toList_some, Entries.ofList_concat]

theorem foldl_moveField (hkeys : (Entries.keys entries).Nodup)
    (hfield : field ∉ Entries.keys entries) (names : List Text) :
    names.foldl (moveField field value) ([], entries) = afterNames field value entries names := by
  induction names using List.reverseRecOn with
  | nil => simp [afterNames, select, Entries.ofList, Entries.insertAll]
  | append_singleton names name ih =>
    rw [List.foldl_concat, ih, moveField_afterNames hkeys hfield]

theorem nodup_keys_insertField {fields : List Schema} (hmem : field ∈ fields.map (·.name))
    (hkeys : (Entries.keys entries).Nodup) (hfield : field ∉ Entries.keys entries) :
    (Entries.keys (insertField fields field value entries)).Nodup := by
  rw [keys_insertField hmem]
  exact nodup_arrange (List.nodup_cons.2 ⟨hfield, hkeys⟩)

/-- The entries that are moved one field after another make up the object with the new field. -/
theorem insertField_eq_moveFields {fields : List Schema} (hmem : field ∈ fields.map (·.name))
    (hkeys : (Entries.keys entries).Nodup) (hfield : field ∉ Entries.keys entries) :
    insertField fields field value entries =
      moveFields (fields.map (·.name)) field value entries := by
  have hnodup : (Entries.keys (insertField fields field value entries)).Nodup :=
    nodup_keys_insertField hmem hkeys hfield
  rw [insertField_eq] at hnodup ⊢
  rw [moveFields, foldl_moveField hkeys hfield, afterNames_eq]
  exact (Entries.insertAll_of_nodup hnodup).symm

end Move

/-! ## A field made present and absent again -/

section Present

variable {schema target : Schema} {fields : List Schema} {field : Text} {value : Value}
  {entries : Entries Value}

/-- The new field taken away again, the keys are those of before in the order of the schema. -/
theorem keys_erase_insertField (hmem : field ∈ fields.map (·.name))
    (hkeys : (Entries.keys entries).Nodup) (habsent : field ∉ Entries.keys entries) :
    Entries.keys (Entries.erase field (insertField fields field value entries)) =
      arrange (fields.map (·.name)) (Entries.keys entries) := by
  rw [Entries.keys_erase, keys_insertField hmem,
    erase_arrange (List.nodup_cons.2 ⟨habsent, hkeys⟩), List.erase_cons_head]

theorem get?_erase_insertField (hmem : field ∈ fields.map (·.name))
    (hkeys : (Entries.keys entries).Nodup) (habsent : field ∉ Entries.keys entries)
    (key : Text) :
    Entries.get? key (Entries.erase field (insertField fields field value entries)) =
      Entries.get? key entries := by
  rw [Entries.get?_erase (nodup_keys_insertField hmem hkeys habsent), get?_insertField hmem]
  by_cases hkey : key = field
  · subst hkey
    rw [if_pos rfl, Entries.get?_eq_none_iff.2 habsent]
  · rw [if_neg hkey, if_neg hkey]

theorem name_mem_of_field? (hfields : schema.fields? = some fields)
    (htarget : schema.field? field = some target) : field ∈ fields.map (·.name) := by
  have hfind : fields.find? (·.name = field) = some target := by
    simpa [Schema.field?, hfields] using htarget
  have hname : target.name = field := by simpa using List.find?_some hfind
  have htarget_mem : target ∈ fields := List.mem_of_find?_eq_some hfind
  exact hname ▸ List.mem_map_of_mem htarget_mem

/-- A field that was absent is made present with the default of the first field of its name: the
keys are those of the fields that are there, in the order of the schema, and then the others, and
every entry keeps its value. Made absent again it leaves the entries that there were, and the very
object if that was in the order of the schema. -/
theorem setOptional_present (hfields : schema.fields? = some fields)
    (htarget : schema.field? field = some target) (hkeys : (Entries.keys entries).Nodup)
    (habsent : field ∉ Entries.keys entries) :
    ∃ new back, setOptional schema field true (.object entries) = .ok ((), .object new) ∧
      new = moveFields (fields.map (·.name)) field target.default entries ∧
      Entries.keys new = arrange (fields.map (·.name)) (field :: Entries.keys entries) ∧
      (∀ key, Entries.get? key new =
        if key = field then some target.default else Entries.get? key entries) ∧
      setOptional schema field false (.object new) = .ok ((), .object back) ∧
      back.Perm entries ∧
      (back = entries ↔
        arrange (fields.map (·.name)) (Entries.keys entries) = Entries.keys entries) := by
  have hmem := name_mem_of_field? hfields htarget
  have hplace : place fields field target.default true entries =
      insertField fields field target.default entries := by
    rw [place_eq, if_pos rfl, if_neg habsent]
  have hback : Entries.keys
      (Entries.erase field (insertField fields field target.default entries)) =
        arrange (fields.map (·.name)) (Entries.keys entries) :=
    keys_erase_insertField hmem hkeys habsent
  have hget (key : Text) : Entries.get? key
      (Entries.erase field (insertField fields field target.default entries)) =
        Entries.get? key entries :=
    get?_erase_insertField hmem hkeys habsent key
  have hnodup : (Entries.keys
      (Entries.erase field (insertField fields field target.default entries))).Nodup := by
    rw [hback]
    exact nodup_arrange hkeys
  refine ⟨insertField fields field target.default entries, _,
    hplace ▸ setOptional_eq_place hfields htarget, insertField_eq_moveFields hmem hkeys habsent,
    keys_insertField hmem, fun key => get?_insertField hmem,
    setOptional_eq_place hfields htarget, Entries.perm_of_get? hnodup hkeys hget, ?_⟩
  constructor
  · intro heq
    rw [← hback]
    exact congrArg Entries.keys heq
  · intro harrange
    exact Entries.ext (hback.trans harrange) hnodup hget

theorem setOptional_present_strayEntries :
    (Schema.anonymous (.object repeatedFields)).fields? = some repeatedFields ∧
    (Schema.anonymous (.object repeatedFields)).field? "a".toList =
      some ⟨"a".toList, true, none, .string⟩ ∧
    (Entries.keys strayEntries).Nodup ∧ "a".toList ∉ Entries.keys strayEntries ∧
    ∃ new back,
      setOptional (.anonymous (.object repeatedFields)) "a".toList true (.object strayEntries) =
        .ok ((), .object new) ∧
      new = moveFields (repeatedFields.map (·.name)) "a".toList
        (Schema.default ⟨"a".toList, true, none, .string⟩) strayEntries ∧
      Entries.keys new = arrange (repeatedFields.map (·.name))
        ("a".toList :: Entries.keys strayEntries) ∧
      (∀ key, Entries.get? key new =
        if key = "a".toList then some (Schema.default ⟨"a".toList, true, none, .string⟩)
        else Entries.get? key strayEntries) ∧
      setOptional (.anonymous (.object repeatedFields)) "a".toList false (.object new) =
        .ok ((), .object back) ∧
      back.Perm strayEntries ∧
      (back = strayEntries ↔ arrange (repeatedFields.map (·.name)) (Entries.keys strayEntries) =
        Entries.keys strayEntries) := by
  have hkeys : (Entries.keys strayEntries).Nodup := by decide
  have habsent : "a".toList ∉ Entries.keys strayEntries := by decide
  exact ⟨rfl, rfl, hkeys, habsent, setOptional_present rfl rfl hkeys habsent⟩

/-- The known keys come first, in the order of the schema, and the repeated one comes once. -/
example : arrange (repeatedFields.map (·.name)) ("a".toList :: Entries.keys strayEntries) =
    ["a".toList, "b".toList, "c".toList, "z".toList] := by
  decide

end Present

end InterfaceForms.Edit

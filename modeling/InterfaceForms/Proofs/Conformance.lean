import InterfaceForms.Proofs.Entries
import InterfaceForms.Proofs.Nodes
import InterfaceForms.Union

/-!
# Conforming values

A value conforms to a schema when it fills the place that the schema describes. Conformance is
decided by the kind alone: a union takes `null` beside the values of its branches, and an object has
every required field and no key that is not a field.

* `Schema.default_conforms`: the default of a schema conforms to it, if no enum in it is empty.
* `Schema.switchTo_conforms_iff`: the branches that a union can be switched to.
-/

namespace InterfaceForms

mutual
/-- The value fills the place that the schema describes. -/
def Schema.Conforms : Schema → Value → Prop
  | ⟨_, _, _, kind⟩, v => kind.Conforms v
def Kind.Conforms : Kind → Value → Prop
  | .string, v => ∃ t, v = .string t
  | .number, v => ∃ n, v = .number n
  | .boolean, v => ∃ b, v = .bool b
  | .enum values, v => ∃ t ∈ values, v = .string t
  | .union branches, v => v = .null ∨ conformsToOne branches v
  | .object fields, v => ∃ entries, v = .object entries ∧
    (∀ f ∈ fields, f.optional = false → f.name ∈ Entries.keys entries) ∧
    ∀ entry ∈ entries, conformsToField fields entry.1 entry.2
  | .array item, v => ∃ items, v = .array items ∧ ∀ x ∈ items, item.Conforms x
  | .record item, v => ∃ entries : Entries Value, v = .object entries ∧
    ∀ entry ∈ entries, item.Conforms entry.2
/-- The value conforms to one of the schemas. -/
def conformsToOne : List Schema → Value → Prop
  | [], _ => False
  | s :: rest, v => s.Conforms v ∨ conformsToOne rest v
/-- The key is the name of a field that the value conforms to. -/
def conformsToField : List Schema → Text → Value → Prop
  | [], _, _ => False
  | f :: rest, key, v => f.name = key ∧ f.Conforms v ∨ conformsToField rest key v
end

theorem Schema.conforms_iff {s : Schema} {v : Value} : s.Conforms v ↔ s.kind.Conforms v := by
  obtain ⟨_, _, _, kind⟩ := s
  exact Iff.rfl

theorem conformsToOne_iff {branches : List Schema} {v : Value} :
    conformsToOne branches v ↔ ∃ b ∈ branches, b.Conforms v := by
  induction branches with
  | nil => simp [conformsToOne]
  | cons b rest ih => simp [conformsToOne, ih]

theorem conformsToField_iff {fields : List Schema} {key : Text} {v : Value} :
    conformsToField fields key v ↔ ∃ f ∈ fields, f.name = key ∧ f.Conforms v := by
  induction fields with
  | nil => simp [conformsToField]
  | cons f rest ih => simp [conformsToField, ih]

namespace Kind

theorem conforms_string_iff {v : Value} : string.Conforms v ↔ ∃ t, v = .string t := Iff.rfl

theorem conforms_number_iff {v : Value} : number.Conforms v ↔ ∃ n, v = .number n := Iff.rfl

theorem conforms_boolean_iff {v : Value} : boolean.Conforms v ↔ ∃ b, v = .bool b := Iff.rfl

theorem conforms_enum_iff {values : List Text} {v : Value} :
    (enum values).Conforms v ↔ ∃ t ∈ values, v = .string t := Iff.rfl

theorem conforms_union_iff {branches : List Schema} {v : Value} :
    (union branches).Conforms v ↔ v = .null ∨ ∃ b ∈ branches, b.Conforms v :=
  or_congr_right conformsToOne_iff

theorem conforms_object_iff {fields : List Schema} {entries : Entries Value} :
    (object fields).Conforms (.object entries) ↔
      (∀ f ∈ fields, f.optional = false → f.name ∈ Entries.keys entries) ∧
        ∀ entry ∈ entries, ∃ f ∈ fields, f.name = entry.1 ∧ f.Conforms entry.2 := by
  constructor
  · rintro ⟨_, ⟨⟩, hrequired, hentries⟩
    exact ⟨hrequired, fun entry hentry => conformsToField_iff.1 (hentries entry hentry)⟩
  · rintro ⟨hrequired, hentries⟩
    refine ⟨entries, rfl, hrequired, fun entry hentry => ?_⟩
    exact conformsToField_iff.2 (hentries entry hentry)

theorem conforms_record_iff {item : Schema} {entries : Entries Value} :
    (record item).Conforms (.object entries) ↔ ∀ entry ∈ entries, item.Conforms entry.2 := by
  constructor
  · rintro ⟨_, ⟨⟩, h⟩
    exact h
  · intro h
    exact ⟨entries, rfl, h⟩

theorem conforms_array_iff {item : Schema} {items : List Value} :
    (array item).Conforms (.array items) ↔ ∀ x ∈ items, item.Conforms x := by
  constructor
  · rintro ⟨_, ⟨⟩, h⟩
    exact h
  · intro h
    exact ⟨items, rfl, h⟩

theorem entries_of_conforms_object {fields : List Schema} {v : Value}
    (h : (object fields).Conforms v) : ∃ entries, v = .object entries := by
  obtain ⟨entries, rfl, _⟩ := h
  exact ⟨entries, rfl⟩

theorem entries_of_conforms_record {item : Schema} {v : Value} (h : (record item).Conforms v) :
    ∃ entries, v = .object entries := by
  obtain ⟨entries, rfl, _⟩ := h
  exact ⟨entries, rfl⟩

theorem items_of_conforms_array {item : Schema} {v : Value} (h : (array item).Conforms v) :
    ∃ items, v = .array items := by
  obtain ⟨items, rfl, _⟩ := h
  exact ⟨items, rfl⟩

/-! ## Defaults -/

/-- The kind is not an enum without values. -/
def Inhabited (k : Kind) : Prop := k ≠ .enum []

theorem firstLiteral_conforms {values : List Text} (h : values ≠ []) :
    (enum values).Conforms (Schema.firstLiteral values) := by
  obtain ⟨value, rest, rfl⟩ := List.exists_cons_of_ne_nil h
  exact conforms_enum_iff.2 ⟨value, List.mem_cons_self, rfl⟩

theorem default_conforms {k : Kind} (h : k.Everywhere Inhabited) :
    k.Conforms (Schema.defaultOfKind k) := by
  induction k with
  | string => exact conforms_string_iff.2 ⟨_, rfl⟩
  | number => exact conforms_number_iff.2 ⟨_, rfl⟩
  | boolean => exact conforms_boolean_iff.2 ⟨_, rfl⟩
  | enum values =>
    refine firstLiteral_conforms ?_
    rintro rfl
    exact h _ .self rfl
  | union branches ih => exact conforms_union_iff.2 (.inl rfl)
  | object fields ih =>
    refine conforms_object_iff.2 ⟨?_, ?_⟩
    · intro f hf hreq
      rw [Entries.mem_keys_ofList, Schema.requiredDefaults_eq]
      exact Entries.mem_keys_of_mem
        (List.mem_map_of_mem (List.mem_filter.2 ⟨hf, by simp [hreq]⟩))
    · intro entry hentry
      have hmem := Entries.mem_of_mem_ofList hentry
      rw [Schema.requiredDefaults_eq] at hmem
      obtain ⟨f, hf, rfl⟩ := List.mem_map.1 hmem
      have hf := (List.mem_filter.1 hf).1
      refine ⟨f, hf, rfl, ?_⟩
      rw [Schema.conforms_iff, Schema.default_eq]
      exact ih f hf fun u hu => h u (.field hf hu)
  | array item ih => exact conforms_array_iff.2 nofun
  | record item ih => exact conforms_record_iff.2 nofun

end Kind

theorem Schema.default_conforms {s : Schema} (h : s.kind.Everywhere Kind.Inhabited) :
    s.Conforms s.default := by
  rw [Schema.conforms_iff, Schema.default_eq]
  exact Kind.default_conforms h

/-! ## Branches of a union -/

/-- The value that a branch of the kind starts with conforms to it. An object starts empty, and an
array or a record starts as a string. -/
def Kind.Restarts : Kind → Prop
  | .object fields => ∀ f ∈ fields, f.optional = true
  | .array _ | .record _ => False
  | .union branches => (Kind.union branches).Conforms (.string [])
  | _ => True

theorem Schema.switchTo_conforms_iff {b : Schema} {v : Value} (h : b.kind.Inhabited) :
    b.Conforms (v.switchTo b) ↔ b.kind.Restarts := by
  rw [Schema.conforms_iff, Value.switchTo, Schema.branchDefault]
  cases hkind : b.kind with
  | string => simp [Kind.conforms_string_iff, Kind.Restarts]
  | number => simp [Kind.conforms_number_iff, Kind.Restarts]
  | boolean => simp [Kind.conforms_boolean_iff, Kind.Restarts]
  | enum values =>
    have hne : values ≠ [] := by
      rintro rfl
      exact h hkind
    simp only [Kind.Restarts, iff_true]
    exact Kind.firstLiteral_conforms hne
  | union branches => rfl
  | object fields => simp [Kind.conforms_object_iff, Kind.Restarts, Entries.keys]
  | array item =>
    refine iff_of_false (fun hconf => ?_) id
    obtain ⟨items, hitems⟩ := Kind.items_of_conforms_array hconf
    cases hitems
  | record item =>
    refine iff_of_false (fun hconf => ?_) id
    obtain ⟨entries, hentries⟩ := Kind.entries_of_conforms_record hconf
    cases hentries

end InterfaceForms

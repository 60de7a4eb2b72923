import InterfaceForms.Proofs.FreshKeys
import InterfaceForms.Session

/-!
# Edits of a record

A record is edited by adding entries, renaming keys and removing entries. Each edit changes the
record at one place and leaves all other entries where they are; an edit that fails changes
nothing. What a run of edits does to the values follows from what each edit does to them.

* `Edit.rename_back`, `Edit.removeEntry_addEntry`: edits that take each other back.
* `RecordEdit.Does`: what an edit answers and what it does to the entries.
* `RecordEdit.Trace.sublist`, `RecordEdit.Trace.perm`: the values that a run leaves and returns.
* `Session.run_recordEdits`: what holds of every run of edits.
-/

namespace InterfaceForms

open scoped List

/-! ## Single edits -/

namespace Edit

variable {entries before after : Entries Value} {key old new : Text} {value : Value}

/-- A new entry comes last, under a key that is free. -/
theorem exists_addEntry (item : Schema) (entries : Entries Value) :
    ∃ key ∉ Entries.keys entries,
      addEntry item (.object entries) = .ok (key, .object (entries ++ [(key, item.default)])) :=
  ⟨numberedKey (freshNumber entries), (freshNumber_isLeast entries).1.2, rfl⟩

theorem removeEntry_missing (h : key ∉ Entries.keys entries) :
    removeEntry key (.object entries) = .error (.missingKey key) := by
  simp only [removeEntry, Edit.entries, bind, Except.bind, Entries.get?_eq_none_iff.2 h]
  rfl

theorem removeEntry_split (h : key ∉ Entries.keys before) :
    removeEntry key (.object (before ++ (key, value) :: after)) =
      .ok (value, .object (before ++ after)) := by
  have hget : Entries.get? key (before ++ (key, value) :: after) = some value := by
    rw [Entries.get?_append h, Entries.get?_cons, if_pos rfl]
  simp only [removeEntry, Edit.entries, bind, Except.bind, hget, Entries.erase_split h]
  rfl

/-- Removing the entry just added gives its value and the record as it was. -/
theorem removeEntry_addEntry (item : Schema) (entries : Entries Value) :
    ∃ key v, addEntry item (.object entries) = .ok (key, v) ∧
      removeEntry key v = .ok (item.default, .object entries) := by
  obtain ⟨key, hkey, hadd⟩ := exists_addEntry item entries
  refine ⟨key, _, hadd, ?_⟩
  rw [removeEntry_split hkey, List.append_nil]

theorem rename_eq (old new : Text) (entries : Entries Value) :
    rename old new (.object entries) =
      if old ∉ Entries.keys entries then .error (.missingKey old)
      else if old ≠ new ∧ new ∈ Entries.keys entries then .error (.keyExists new)
      else .ok ((), .object (Entries.rename old new entries)) := by
  have htaken : (old ≠ new ∧ new ∈ Entries.keys entries) ↔
      (decide (old ≠ new) && Entries.contains new entries) = true := by
    rw [Bool.and_eq_true, decide_eq_true_iff, Entries.contains_iff]
  simp only [htaken]
  simp only [← Entries.contains_iff, rename, Edit.entries, bind, Except.bind]
  cases Entries.contains old entries with
  | false => rfl
  | true =>
    cases decide (old ≠ new) && Entries.contains new entries with
    | false => rfl
    | true => rfl

theorem rename_missing (h : old ∉ Entries.keys entries) :
    rename old new (.object entries) = .error (.missingKey old) := by
  rw [rename_eq, if_pos h]

theorem rename_taken (h : old ∈ Entries.keys entries) (hne : old ≠ new)
    (hnew : new ∈ Entries.keys entries) :
    rename old new (.object entries) = .error (.keyExists new) := by
  rw [rename_eq, if_neg (not_not_intro h), if_pos ⟨hne, hnew⟩]

/-- A key is renamed in place. -/
theorem rename_split (hkeys : (Entries.keys (before ++ (old, value) :: after)).Nodup)
    (hnew : old = new ∨ new ∉ Entries.keys (before ++ (old, value) :: after)) :
    rename old new (.object (before ++ (old, value) :: after)) =
      .ok ((), .object (before ++ (new, value) :: after)) := by
  have hold := (Entries.nodup_keys_split.1 hkeys).1
  rw [Entries.keys_append, List.mem_append, not_or] at hold
  have hmem : old ∈ Entries.keys (before ++ (old, value) :: after) :=
    Entries.mem_keys_split.2 (.inl rfl)
  have hallowed : ¬(old ≠ new ∧ new ∈ Entries.keys (before ++ (old, value) :: after)) :=
    fun htaken => hnew.elim htaken.1 fun hfree => hfree htaken.2
  rw [rename_eq, if_neg (not_not_intro hmem), if_neg hallowed,
    Entries.rename_split hold.1 hold.2]

theorem exists_of_rename {r : Unit × Value} (h : rename old new (.object entries) = .ok r) :
    ∃ before value after, entries = before ++ (old, value) :: after ∧
      (old = new ∨ new ∉ Entries.keys entries) := by
  by_cases hold : old ∈ Entries.keys entries
  · obtain ⟨before, value, after, hsplit, -⟩ := Entries.exists_split hold
    refine ⟨before, value, after, hsplit, ?_⟩
    by_contra hnew
    rw [not_or, not_not] at hnew
    rw [rename_taken hold hnew.1 hnew.2] at h
    cases h
  · rw [rename_missing hold] at h
    cases h

/-- A renamed record is what its entries give when they are added one after another: no two of
them meet under one key. Renaming the key back gives the record as it was. -/
theorem rename_back {r : Unit × Value} (hkeys : (Entries.keys entries).Nodup)
    (h : rename old new (.object entries) = .ok r) :
    r.2 = .object (Entries.ofList (Entries.rename old new entries)) ∧
      rename new old r.2 = .ok ((), .object entries) := by
  obtain ⟨before, value, after, rfl, hnew⟩ := exists_of_rename h
  obtain ⟨hold, hothers⟩ := Entries.nodup_keys_split.1 hkeys
  rw [rename_split hkeys hnew] at h
  obtain rfl := Except.ok.inj h
  have hsplit : old ∉ Entries.keys before ∧ old ∉ Entries.keys after := by
    rwa [Entries.keys_append, List.mem_append, not_or] at hold
  have hrenamed : (Entries.keys (before ++ (new, value) :: after)).Nodup ∧
      (new = old ∨ old ∉ Entries.keys (before ++ (new, value) :: after)) := by
    rcases hnew with rfl | hnew
    · exact ⟨hkeys, .inl rfl⟩
    · -- no other entry has the old key, so that it is free again
      rw [Entries.mem_keys_split, not_or] at hnew
      refine ⟨Entries.nodup_keys_split.2 ⟨hnew.2, hothers⟩, .inr ?_⟩
      rw [Entries.mem_keys_split, not_or]
      exact ⟨Ne.symm hnew.1, hold⟩
  refine ⟨?_, rename_split hrenamed.1 hrenamed.2⟩
  rw [Entries.rename_split hsplit.1 hsplit.2, Entries.ofList_of_nodup hrenamed.1]

end Edit

/-! ## Edits as steps of a session -/

inductive RecordEdit
  | add (item : Schema)
  | rename (old new : Text)
  | remove (key : Text)

namespace RecordEdit

def action : RecordEdit → Action
  | .add item => .addEntry (.given item)
  | .rename old new => .rename old new
  | .remove key => .removeEntry key

/-- The step that edits a document which is the record. -/
def step (edit : RecordEdit) : Step := ⟨[], edit.action⟩

/-- `Does entries edit answer next`: on a record with these entries the edit gives the answer, and
the entries are `next` after it. -/
inductive Does (entries : Entries Value) :
    RecordEdit → Except StepError Answer → Entries Value → Prop
  | added {item : Schema} {key : Text} (h : key ∉ Entries.keys entries) :
    Does entries (.add item) (.ok (.key key)) (entries ++ [(key, item.default)])
  | renamed {before after : Entries Value} {old new : Text} {value : Value}
    (h : entries = before ++ (old, value) :: after)
    (hnew : old = new ∨ new ∉ Entries.keys entries) :
    Does entries (.rename old new) (.ok .none) (before ++ (new, value) :: after)
  | removed {before after : Entries Value} {key : Text} {value : Value}
    (h : entries = before ++ (key, value) :: after) :
    Does entries (.remove key) (.ok (.value value)) (before ++ after)
  | renameMissing {old new : Text} (h : old ∉ Entries.keys entries) :
    Does entries (.rename old new) (.error (.edit (.missingKey old))) entries
  | renameTaken {old new : Text} (h : old ∈ Entries.keys entries) (hne : old ≠ new)
    (hnew : new ∈ Entries.keys entries) :
    Does entries (.rename old new) (.error (.edit (.keyExists new))) entries
  | removeMissing {key : Text} (h : key ∉ Entries.keys entries) :
    Does entries (.remove key) (.error (.edit (.missingKey key))) entries

/-- `Trace start edits rows final`: the edits, made one after another on a record with the entries
`start`, give these answers and records, and leave the entries `final`. -/
inductive Trace : Entries Value → List RecordEdit → List (Except StepError Answer × Value) →
    Entries Value → Prop
  | nil {entries : Entries Value} : Trace entries [] [] entries
  | cons {entries next final : Entries Value} {edit : RecordEdit} {edits : List RecordEdit}
    {answer : Except StepError Answer} {rows : List (Except StepError Answer × Value)}
    (hedit : Does entries edit answer next) (hedits : Trace next edits rows final) :
    Trace entries (edit :: edits) ((answer, .object next) :: rows) final

/-- The value that an edit adds. -/
def newValues : RecordEdit → List Value
  | .add item => [item.default]
  | .rename .. => []
  | .remove _ => []

/-- The value that a removal returns. -/
def returnedValues : Except StepError Answer → List Value
  | .ok (.value v) => [v]
  | _ => []

variable {entries next start final : Entries Value} {edit : RecordEdit} {edits : List RecordEdit}
  {answer : Except StepError Answer} {rows : List (Except StepError Answer × Value)}

theorem step_ok {roots : List Schema} {a : Answer}
    (h : edit.action.run roots (.object entries) = .ok (a, .object next)) :
    (edit.step.run roots (.object entries)).map (·.1) = .ok a ∧
      edit.step.after roots (.object entries) = .object next := by
  have hrun : edit.step.run roots (.object entries) = .ok (a, .object next) := by
    simp only [step, Step.run, Value.at?, h]
    rfl
  rw [Step.after, hrun]
  exact ⟨rfl, rfl⟩

theorem step_error {roots : List Schema} {cause : StepError}
    (h : edit.action.run roots (.object entries) = .error cause) :
    (edit.step.run roots (.object entries)).map (·.1) = .error cause ∧
      edit.step.after roots (.object entries) = .object entries := by
  have hrun : edit.step.run roots (.object entries) = .error cause := by
    simp only [step, Step.run, Value.at?, h]
    rfl
  rw [Step.after, hrun]
  exact ⟨rfl, rfl⟩

/-- An edit of a record whose keys are distinct, with its answer and the record after it. -/
theorem exists_does (hkeys : (Entries.keys entries).Nodup) (roots : List Schema)
    (edit : RecordEdit) :
    ∃ answer next, Does entries edit answer next ∧
      (edit.step.run roots (.object entries)).map (·.1) = answer ∧
      edit.step.after roots (.object entries) = .object next := by
  cases edit with
  | add item =>
    obtain ⟨key, hkey, hadd⟩ := Edit.exists_addEntry item entries
    refine ⟨_, _, .added hkey, step_ok ?_⟩
    simp only [action, Action.run, Action.run.schema, SchemaRef.find?, Action.run.edit, bind,
      Except.bind, hadd]
    rfl
  | rename old new =>
    by_cases hold : old ∈ Entries.keys entries
    · by_cases hnew : old = new ∨ new ∉ Entries.keys entries
      · obtain ⟨before, value, after, rfl, -⟩ := Entries.exists_split hold
        refine ⟨_, _, .renamed rfl hnew, step_ok ?_⟩
        rw [action, Action.run, Edit.rename_split hkeys hnew]
        rfl
      · rw [not_or, not_not] at hnew
        refine ⟨_, _, .renameTaken hold hnew.1 hnew.2, step_error ?_⟩
        rw [action, Action.run, Edit.rename_taken hold hnew.1 hnew.2]
        rfl
    · refine ⟨_, _, .renameMissing hold, step_error ?_⟩
      rw [action, Action.run, Edit.rename_missing hold]
      rfl
  | remove key =>
    by_cases hkey : key ∈ Entries.keys entries
    · obtain ⟨before, value, after, rfl, hbefore⟩ := Entries.exists_split hkey
      refine ⟨_, _, .removed rfl, step_ok ?_⟩
      rw [action, Action.run, Edit.removeEntry_split hbefore]
      rfl
    · refine ⟨_, _, .removeMissing hkey, step_error ?_⟩
      rw [action, Action.run, Edit.removeEntry_missing hkey]
      rfl

theorem Does.nodup (h : Does entries edit answer next) (hkeys : (Entries.keys entries).Nodup) :
    (Entries.keys next).Nodup := by
  cases h with
  | added hkey =>
    rw [Entries.nodup_keys_split, List.append_nil]
    exact ⟨hkey, hkeys⟩
  | renamed h hnew =>
    subst h
    rcases hnew with rfl | hnew
    · exact hkeys
    · rw [Entries.mem_keys_split, not_or] at hnew
      exact Entries.nodup_keys_split.2 ⟨hnew.2, (Entries.nodup_keys_split.1 hkeys).2⟩
  | removed h =>
    subst h
    exact (Entries.nodup_keys_split.1 hkeys).2
  | renameMissing => exact hkeys
  | renameTaken => exact hkeys
  | removeMissing => exact hkeys

/-- The values that an edit leaves are in the order of the old ones, with a new one at the end. -/
theorem Does.sublist (h : Does entries edit answer next) :
    (next.map (·.2)).Sublist (entries.map (·.2) ++ newValues edit) := by
  cases h with
  | added => simp [newValues]
  | renamed h => simp [newValues, h]
  | removed h => simp [newValues, h]
  | renameMissing => simp [newValues]
  | renameTaken => simp [newValues]
  | removeMissing => simp [newValues]

/-- The values that an edit leaves or returns are the old ones and the new one. -/
theorem Does.perm (h : Does entries edit answer next) :
    (next.map (·.2) ++ returnedValues answer).Perm (entries.map (·.2) ++ newValues edit) := by
  cases h with
  | added => simp [newValues, returnedValues]
  | renamed h => simp [newValues, returnedValues, h]
  | removed h =>
    simp only [h, newValues, returnedValues, List.map_append, List.map_cons, List.append_nil]
    exact (List.perm_append_singleton _ _).trans List.perm_middle.symm
  | renameMissing => simp [newValues, returnedValues]
  | renameTaken => simp [newValues, returnedValues]
  | removeMissing => simp [newValues, returnedValues]

theorem exists_trace (hkeys : (Entries.keys start).Nodup) (roots : List Schema)
    (edits : List RecordEdit) :
    ∃ final, Trace start edits (Session.run roots (.object start) (edits.map step)) final := by
  induction edits generalizing start with
  | nil => exact ⟨start, .nil⟩
  | cons edit edits ih =>
    obtain ⟨answer, next, hdoes, hanswer, hafter⟩ := exists_does hkeys roots edit
    obtain ⟨final, htrace⟩ := ih (hdoes.nodup hkeys)
    refine ⟨final, ?_⟩
    rw [List.map_cons, Session.run, hanswer, hafter]
    exact .cons hdoes htrace

theorem Trace.nodup (h : Trace start edits rows final) (hkeys : (Entries.keys start).Nodup) :
    (Entries.keys final).Nodup ∧
      ∀ row ∈ rows, ∃ entries, row.2 = .object entries ∧ (Entries.keys entries).Nodup := by
  induction h with
  | nil => exact ⟨hkeys, nofun⟩
  | cons hedit _ ih =>
    have hnext := hedit.nodup hkeys
    obtain ⟨hfinal, hrows⟩ := ih hnext
    exact ⟨hfinal, List.forall_mem_cons.2 ⟨⟨_, rfl, hnext⟩, hrows⟩⟩

/-- The values that a run leaves are in the order in which they were there or were added. -/
theorem Trace.sublist (h : Trace start edits rows final) :
    (final.map (·.2)).Sublist (start.map (·.2) ++ edits.flatMap newValues) := by
  induction h with
  | nil => simp
  | cons hedit _ ih =>
    rw [List.flatMap_cons, ← List.append_assoc]
    exact ih.trans (hedit.sublist.append_right _)

/-- The values that a run leaves or returns are those that were there and those that were added. -/
theorem Trace.perm (h : Trace start edits rows final) :
    (final.map (·.2) ++ rows.flatMap fun row => returnedValues row.1).Perm
      (start.map (·.2) ++ edits.flatMap newValues) := by
  induction h with
  | nil => simp
  | @cons entries next final edit edits answer rows hedit _ ih =>
    have hrest := ih.append_right (returnedValues answer)
    have hfirst := hedit.perm.append_right (edits.flatMap newValues)
    rw [List.append_assoc, List.append_assoc] at hrest hfirst
    rw [List.flatMap_cons, List.flatMap_cons]
    calc final.map (·.2) ++ (returnedValues answer ++ rows.flatMap fun row => returnedValues row.1)
      _ ~ final.map (·.2) ++ (rows.flatMap (fun row => returnedValues row.1) ++
          returnedValues answer) := List.perm_append_comm.append_left _
      _ ~ next.map (·.2) ++ (edits.flatMap newValues ++ returnedValues answer) := hrest
      _ ~ next.map (·.2) ++ (returnedValues answer ++ edits.flatMap newValues) :=
        List.perm_append_comm.append_left _
      _ ~ entries.map (·.2) ++ (newValues edit ++ edits.flatMap newValues) := hfirst

end RecordEdit

/-! ## Runs of edits -/

namespace Session

open RecordEdit

/-- Edits of a record whose keys are distinct, one after another. The keys are distinct after each
of them, and each does what `Does` says: it changes one entry in its place, or fails and changes
nothing. The values at the end are those from the start and the added ones, without those that
removals returned, in their order. From there a renaming and an addition can be taken back. -/
theorem run_recordEdits {start : Entries Value} (hkeys : (Entries.keys start).Nodup)
    (roots : List Schema) (edits : List RecordEdit) :
    ∃ rows final, run roots (.object start) (edits.map step) = rows ∧
      Trace start edits rows final ∧
      (∀ row ∈ rows, ∃ entries, row.2 = .object entries ∧ (Entries.keys entries).Nodup) ∧
      (final.map (·.2) ++ rows.flatMap fun row => returnedValues row.1).Perm
        (start.map (·.2) ++ edits.flatMap newValues) ∧
      (final.map (·.2)).Sublist (start.map (·.2) ++ edits.flatMap newValues) ∧
      (∀ old new r, Edit.rename old new (.object final) = .ok r →
        r.2 = .object (Entries.ofList (Entries.rename old new final)) ∧
        Edit.rename new old r.2 = .ok ((), .object final)) ∧
      ∀ item, ∃ key v, Edit.addEntry item (.object final) = .ok (key, v) ∧
        Edit.removeEntry key v = .ok (item.default, .object final) := by
  obtain ⟨final, htrace⟩ := exists_trace hkeys roots edits
  obtain ⟨hfinal, hrows⟩ := htrace.nodup hkeys
  refine ⟨_, final, rfl, htrace, hrows, htrace.perm, htrace.sublist, ?_, ?_⟩
  · intro old new r h
    exact Edit.rename_back hfinal h
  · intro item
    exact Edit.removeEntry_addEntry item final

/-- Entries with the keys `key_3` and `b`. -/
def numberedEntries : Entries Value := [("key_3".toList, .bool true), ("b".toList, .int 1)]

/-- Edits that meet keys of the form of the fresh ones: `b` takes the name of an entry to come, a
removed key is free again, and one key is taken. -/
def numberedEdits : List RecordEdit :=
  [.rename "b".toList "key_4".toList, .add (.anonymous .string), .remove "key_3".toList,
    .add (.anonymous .number), .rename "key_4".toList "key_5".toList, .remove "b".toList]

theorem run_recordEdits_numbered :
    (Entries.keys numberedEntries).Nodup ∧
    ∃ rows final, run [] (.object numberedEntries) (numberedEdits.map step) = rows ∧
      Trace numberedEntries numberedEdits rows final ∧
      (∀ row ∈ rows, ∃ entries, row.2 = .object entries ∧ (Entries.keys entries).Nodup) ∧
      (final.map (·.2) ++ rows.flatMap fun row => returnedValues row.1).Perm
        (numberedEntries.map (·.2) ++ numberedEdits.flatMap newValues) ∧
      (final.map (·.2)).Sublist (numberedEntries.map (·.2) ++ numberedEdits.flatMap newValues) ∧
      (∀ old new r, Edit.rename old new (.object final) = .ok r →
        r.2 = .object (Entries.ofList (Entries.rename old new final)) ∧
        Edit.rename new old r.2 = .ok ((), .object final)) ∧
      ∀ item, ∃ key v, Edit.addEntry item (.object final) = .ok (key, v) ∧
        Edit.removeEntry key v = .ok (item.default, .object final) := by
  have hkeys : (Entries.keys numberedEntries).Nodup := by decide
  exact ⟨hkeys, run_recordEdits hkeys [] numberedEdits⟩

end Session

end InterfaceForms

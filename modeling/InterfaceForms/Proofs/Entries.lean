import InterfaceForms.Entries
import Mathlib.Data.List.Induction
import Mathlib.Data.List.Nodup

/-!
# Keys and entries after a change

What each change of an object does to its keys and to its entries. An entry after a change is one
from before, or the new one; only the removed or renamed key is lost. A change under a key leaves
the entries alone that stand before it under other keys.
-/

namespace InterfaceForms.Entries

variable {α : Type} {entries : Entries α} {key : Text} {value : α}

theorem get?_eq_none_iff : get? key entries = none ↔ key ∉ keys entries := by
  simp only [get?, Option.map_eq_none_iff, List.find?_eq_none, decide_eq_true_eq, keys,
    List.mem_map, not_exists, not_and]

theorem mem_keys_of_mem {entry : Text × α} (h : entry ∈ entries) : entry.1 ∈ keys entries :=
  List.mem_map_of_mem h

/-! ## Insertion -/

theorem mem_keys_insert {other : Text} :
    other ∈ keys (insert key value entries) ↔ other = key ∨ other ∈ keys entries := by
  rw [keys_insert]
  split
  · rename_i h
    constructor
    · exact .inr
    · rintro (rfl | hother)
      · exact h
      · exact hother
  · rw [List.mem_append, List.mem_singleton, or_comm]

theorem mem_of_mem_insert {entry : Text × α} (h : entry ∈ insert key value entries) :
    entry = (key, value) ∨ entry ∈ entries := by
  induction entries with
  | nil => exact .inl (List.mem_singleton.1 h)
  | cons e rest ih =>
    unfold insert at h
    split at h
    · rcases List.mem_cons.1 h with h | h
      · exact .inl h
      · exact .inr (List.mem_cons_of_mem _ h)
    · rcases List.mem_cons.1 h with rfl | h
      · exact .inr List.mem_cons_self
      · rcases ih h with h | h
        · exact .inl h
        · exact .inr (List.mem_cons_of_mem _ h)

theorem mem_keys_insertAll {pairs : List (Text × α)} :
    key ∈ keys (insertAll entries pairs) ↔ key ∈ keys entries ∨ key ∈ keys pairs := by
  unfold insertAll
  induction pairs generalizing entries with
  | nil => simp [keys]
  | cons pair pairs ih =>
    rw [List.foldl_cons, ih, mem_keys_insert]
    simp only [keys, List.map_cons, List.mem_cons]
    rw [or_assoc, or_left_comm]

theorem mem_of_mem_insertAll {pairs : List (Text × α)} {entry : Text × α}
    (h : entry ∈ insertAll entries pairs) : entry ∈ entries ∨ entry ∈ pairs := by
  unfold insertAll at h
  induction pairs generalizing entries with
  | nil => exact .inl h
  | cons pair pairs ih =>
    rcases ih h with h | h
    · rcases mem_of_mem_insert h with rfl | h
      · exact .inr List.mem_cons_self
      · exact .inl h
    · exact .inr (List.mem_cons_of_mem _ h)

theorem mem_keys_ofList {pairs : List (Text × α)} :
    key ∈ keys (ofList pairs) ↔ key ∈ keys pairs := by
  rw [ofList, mem_keys_insertAll]
  simp [keys]

theorem mem_of_mem_ofList {pairs : List (Text × α)} {entry : Text × α}
    (h : entry ∈ ofList pairs) : entry ∈ pairs := by
  rcases mem_of_mem_insertAll h with h | h
  · cases h
  · exact h

/-! ## Changing a value -/

/-- Changes the value of a key. -/
def update (key : Text) (f : α → α) : Entries α → Entries α
  | [] => []
  | entry :: rest =>
    if entry.1 = key then (key, f entry.2) :: rest else entry :: update key f rest

theorem get?_cons (entry : Text × α) (rest : Entries α) :
    get? key (entry :: rest) = if entry.1 = key then some entry.2 else get? key rest := by
  by_cases h : entry.1 = key <;> simp [get?, h]

@[simp] theorem keys_update (f : α → α) : keys (update key f entries) = keys entries := by
  induction entries with
  | nil => rfl
  | cons entry rest ih =>
    unfold update
    by_cases h : entry.1 = key
    · simp [h, keys]
    · simpa [h, keys] using ih

@[simp] theorem get?_update_self (f : α → α) :
    get? key (update key f entries) = (get? key entries).map f := by
  induction entries with
  | nil => rfl
  | cons entry rest ih =>
    unfold update
    by_cases h : entry.1 = key <;> simp [h, get?_cons, ih]

theorem get?_insert {other : Text} :
    get? other (insert key value entries) =
      if key = other then some value else get? other entries := by
  induction entries with
  | nil => exact get?_cons (key, value) []
  | cons entry rest ih =>
    unfold insert
    by_cases h : entry.1 = key
    · rw [if_pos h, get?_cons, get?_cons, h]
      split <;> rfl
    · rw [if_neg h, get?_cons, get?_cons, ih]
      by_cases hother : entry.1 = other
      · rw [if_pos hother, if_pos hother, if_neg fun hkey => h (hother.trans hkey.symm)]
      · rw [if_neg hother, if_neg hother]

@[simp] theorem get?_insert_self : get? key (insert key value entries) = some value := by
  rw [get?_insert, if_pos rfl]

/-- A key that is given its own value again changes nothing. -/
theorem insert_of_get? (h : get? key entries = some value) : insert key value entries = entries := by
  induction entries with
  | nil => cases h
  | cons entry rest ih =>
    rw [get?_cons] at h
    unfold insert
    by_cases hkey : entry.1 = key
    · rw [if_pos hkey] at h ⊢
      rw [← hkey, ← Option.some.inj h]
    · rw [if_neg hkey] at h ⊢
      rw [ih h]

theorem mem_of_mem_update {f : α → α} {entry : Text × α} (h : entry ∈ update key f entries) :
    entry ∈ entries ∨ ∃ a, get? key entries = some a ∧ entry = (key, f a) := by
  induction entries with
  | nil => cases h
  | cons e rest ih =>
    unfold update at h
    by_cases he : e.1 = key
    · rw [if_pos he] at h
      rcases List.mem_cons.1 h with rfl | h
      · exact .inr ⟨e.2, by rw [get?_cons, if_pos he], rfl⟩
      · exact .inl (List.mem_cons_of_mem _ h)
    · rw [if_neg he] at h
      rcases List.mem_cons.1 h with rfl | h
      · exact .inl List.mem_cons_self
      · rcases ih h with h | ⟨a, ha, rfl⟩
        · exact .inl (List.mem_cons_of_mem _ h)
        · exact .inr ⟨a, by rw [get?_cons, if_neg he, ha], rfl⟩

theorem update_insert (f : α → α) :
    update key f (insert key value entries) = insert key (f value) entries := by
  induction entries with
  | nil => simp [insert, update]
  | cons entry rest ih =>
    by_cases h : entry.1 = key <;> simp [insert, update, h, ih]

/-! ## Pairs added one after another -/

theorem ofList_concat (pairs : List (Text × α)) (pair : Text × α) :
    ofList (pairs ++ [pair]) = insert pair.1 pair.2 (ofList pairs) := by
  rw [ofList, insertAll, List.foldl_append]
  rfl

/-- The keys are in the order of their first pairs. -/
theorem keys_ofList (pairs : List (Text × α)) : keys (ofList pairs) = (keys pairs).eraseDups := by
  induction pairs using List.reverseRecOn with
  | nil => rfl
  | append_singleton pairs pair ih =>
    have hkeys : keys (pairs ++ [pair]) = keys pairs ++ [pair.1] := List.map_append
    rw [ofList_concat, keys_insert, ih, hkeys, List.eraseDups_append]
    by_cases h : pair.1 ∈ keys pairs
    · simp [h, List.removeAll]
    · simp [h, List.removeAll, List.eraseDups_cons]

theorem nodup_keys_ofList (pairs : List (Text × α)) : (keys (ofList pairs)).Nodup := by
  induction pairs using List.reverseRecOn with
  | nil => exact List.nodup_nil
  | append_singleton pairs pair ih =>
    rw [ofList_concat, keys_insert]
    split
    · exact ih
    · rename_i hnew
      rw [← List.concat_eq_append]
      exact List.Nodup.concat hnew ih

/-- A key keeps the value of its last pair. -/
theorem get?_ofList (pairs : List (Text × α)) :
    get? key (ofList pairs) = get? key pairs.reverse := by
  induction pairs using List.reverseRecOn with
  | nil => rfl
  | append_singleton pairs pair ih =>
    rw [ofList_concat, get?_insert, ih, List.reverse_append, List.reverse_singleton,
      List.singleton_append, get?_cons]

/-- Of distinct keys those are kept whose values are. -/
theorem keys_filter (hkeys : (keys entries).Nodup) (p : α → Bool) :
    keys (entries.filter fun entry => p entry.2) =
      (keys entries).filter fun key => (get? key entries).all p := by
  induction entries with
  | nil => rfl
  | cons entry rest ih =>
    obtain ⟨hnew, hrest⟩ := List.nodup_cons.1 hkeys
    have hsame : ∀ key ∈ keys rest,
        (get? key (entry :: rest)).all p = (get? key rest).all p := by
      intro key hkey
      have hne : entry.1 ≠ key := by
        rintro rfl
        exact hnew hkey
      rw [get?_cons, if_neg hne]
    have hself : (get? entry.1 (entry :: rest)).all p = p entry.2 := by
      rw [get?_cons, if_pos rfl, Option.all_some]
    have hcons : keys (entry :: rest) = entry.1 :: keys rest := rfl
    rw [hcons, List.filter_cons, List.filter_cons, hself, List.filter_congr hsame, ← ih hrest]
    split <;> rfl

/-- Entries with distinct keys are known from the keys in their order and the value of each. -/
theorem ext {other : Entries α} (hkeys : keys entries = keys other) (hnodup : (keys entries).Nodup)
    (hget : ∀ key, get? key entries = get? key other) : entries = other := by
  induction entries generalizing other with
  | nil => exact (List.map_eq_nil_iff.1 hkeys.symm).symm
  | cons entry rest ih =>
    cases other with
    | nil => cases hkeys
    | cons entry' rest' =>
      have hkey : entry.1 = entry'.1 := (List.cons.inj hkeys).1
      have hrest : keys rest = keys rest' := (List.cons.inj hkeys).2
      obtain ⟨hnew, hnodup⟩ := List.nodup_cons.1 hnodup
      have hvalue := hget entry.1
      rw [get?_cons, get?_cons, if_pos rfl, if_pos hkey.symm] at hvalue
      have hget' : ∀ key, get? key rest = get? key rest' := by
        intro key
        by_cases hk : entry.1 = key
        · -- the first key comes no second time
          subst hk
          rw [get?_eq_none_iff.2 hnew, get?_eq_none_iff.2]
          exact hrest ▸ hnew
        · have h := hget key
          rwa [get?_cons, get?_cons, if_neg hk, if_neg (hkey ▸ hk)] at h
      rw [ih hrest hnodup hget', Prod.ext hkey (Option.some.inj hvalue)]

theorem nodup_keys_cons {entry : Text × α} :
    (keys (entry :: entries)).Nodup ↔ entry.1 ∉ keys entries ∧ (keys entries).Nodup :=
  List.nodup_cons

theorem mem_iff_get? (hkeys : (keys entries).Nodup) {entry : Text × α} :
    entry ∈ entries ↔ get? entry.1 entries = some entry.2 := by
  refine ⟨fun h => ?_, get?_eq_some_mem⟩
  induction entries with
  | nil => cases h
  | cons first rest ih =>
    obtain ⟨hnew, hrest⟩ := nodup_keys_cons.1 hkeys
    rw [get?_cons]
    rcases List.mem_cons.1 h with rfl | h
    · exact if_pos rfl
    · have hne : first.1 ≠ entry.1 := by
        intro he
        exact hnew (he ▸ mem_keys_of_mem h)
      rw [if_neg hne, ih hrest h]

/-- Entries with distinct keys are known but for their order from the value of each key. -/
theorem perm_of_get? {other : Entries α} (hkeys : (keys entries).Nodup)
    (hother : (keys other).Nodup) (hget : ∀ key, get? key entries = get? key other) :
    entries.Perm other := by
  rw [List.perm_ext_iff_of_nodup (List.Nodup.of_map _ hkeys) (List.Nodup.of_map _ hother)]
  intro entry
  rw [mem_iff_get? hkeys, mem_iff_get? hother, hget]

/-- Entries with distinct keys are looked up alike in every order. -/
theorem get?_perm {other : Entries α} (hkeys : (keys entries).Nodup) (h : entries.Perm other)
    (key : Text) : get? key entries = get? key other := by
  have hother : (keys other).Nodup := (h.map Prod.fst).nodup_iff.1 hkeys
  refine Option.ext fun value => ?_
  have hentry : (key, value) ∈ entries ↔ get? key entries = some value := mem_iff_get? hkeys
  have hmem : (key, value) ∈ other ↔ get? key other = some value := mem_iff_get? hother
  rw [← hentry, ← hmem, h.mem_iff]

/-- A key that is there has a first place. -/
theorem exists_split (h : key ∈ keys entries) :
    ∃ before value after, entries = before ++ (key, value) :: after ∧ key ∉ keys before := by
  induction entries with
  | nil => cases h
  | cons entry rest ih =>
    by_cases hentry : entry.1 = key
    · subst hentry
      exact ⟨[], entry.2, rest, rfl, List.not_mem_nil⟩
    · rcases List.mem_cons.1 h with he | hrest
      · exact absurd he.symm hentry
      · obtain ⟨before, value, after, rfl, hbefore⟩ := ih hrest
        refine ⟨entry :: before, value, after, rfl, ?_⟩
        intro hmem
        rcases List.mem_cons.1 hmem with he | hmem
        · exact hentry he.symm
        · exact hbefore hmem

/-! ## Entries under other keys -/

section Append

variable {before : Entries α}

theorem keys_append (before entries : Entries α) :
    keys (before ++ entries) = keys before ++ keys entries := List.map_append

theorem get?_append_or (before entries : Entries α) :
    get? key (before ++ entries) = (get? key before).or (get? key entries) := by
  rw [get?, List.find?_append, Option.map_or]
  rfl

theorem get?_append (h : key ∉ keys before) : get? key (before ++ entries) = get? key entries := by
  rw [get?_append_or, get?_eq_none_iff.2 h, Option.none_or]

theorem insert_append (h : key ∉ keys before) :
    insert key value (before ++ entries) = before ++ insert key value entries := by
  induction before with
  | nil => rfl
  | cons entry before ih =>
    rw [keys, List.map_cons, List.mem_cons, not_or] at h
    rw [List.cons_append, insert, if_neg (Ne.symm h.1), ih h.2, List.cons_append]

theorem update_append (h : key ∉ keys before) (f : α → α) :
    update key f (before ++ entries) = before ++ update key f entries := by
  induction before with
  | nil => rfl
  | cons entry before ih =>
    rw [keys, List.map_cons, List.mem_cons, not_or] at h
    rw [List.cons_append, update, if_neg (Ne.symm h.1), ih h.2, List.cons_append]

end Append

section Split

variable {before after : Entries α}

theorem mem_keys_split {other : Text} : other ∈ keys (before ++ (key, value) :: after) ↔
    other = key ∨ other ∈ keys (before ++ after) := by
  simp only [keys, List.map_append, List.map_cons, List.mem_append, List.mem_cons]
  rw [or_left_comm]

theorem nodup_keys_split : (keys (before ++ (key, value) :: after)).Nodup ↔
    key ∉ keys (before ++ after) ∧ (keys (before ++ after)).Nodup := by
  simp only [keys, List.map_append, List.map_cons]
  rw [List.nodup_middle, List.nodup_cons]

end Split

theorem insert_of_not_mem (h : key ∉ keys entries) :
    insert key value entries = entries ++ [(key, value)] := by
  rw [← List.append_nil entries, insert_append h, List.append_nil]
  rfl

/-- Where no key comes twice, pairs that are added one after another only follow each other. -/
theorem insertAll_of_nodup {pairs : List (Text × α)} (h : (keys (entries ++ pairs)).Nodup) :
    insertAll entries pairs = entries ++ pairs := by
  induction pairs generalizing entries with
  | nil => exact (List.append_nil entries).symm
  | cons pair pairs ih =>
    have hsplit : entries ++ pair :: pairs = (entries ++ [pair]) ++ pairs := by simp
    have hnew : pair.1 ∉ keys entries := by
      intro hmem
      rw [keys_append] at h
      exact (List.disjoint_of_nodup_append h) hmem List.mem_cons_self
    show insertAll (insert pair.1 pair.2 entries) pairs = _
    rw [insert_of_not_mem hnew, ih (hsplit ▸ h), hsplit]

theorem ofList_of_nodup {pairs : List (Text × α)} (h : (keys pairs).Nodup) :
    ofList pairs = pairs := by
  have happend : insertAll [] pairs = [] ++ pairs := insertAll_of_nodup h
  exact happend

/-! ## Removal and renaming -/

theorem mem_of_mem_erase {entry : Text × α} (h : entry ∈ erase key entries) : entry ∈ entries :=
  List.mem_of_mem_eraseP h

theorem mem_keys_erase {other : Text} (h : other ∈ keys entries) (hne : other ≠ key) :
    other ∈ keys (erase key entries) := by
  obtain ⟨entry, hentry, rfl⟩ := List.mem_map.1 h
  refine mem_keys_of_mem ((List.mem_eraseP_of_neg ?_).2 hentry)
  simpa using hne

theorem keys_erase (key : Text) (entries : Entries α) :
    keys (erase key entries) = (keys entries).erase key := by
  rw [keys, keys, erase, List.erase_eq_eraseP', List.eraseP_map]
  congr 2
  funext entry
  simp only [Function.comp_apply, beq_eq_decide]

theorem get?_erase (hkeys : (keys entries).Nodup) {other : Text} :
    get? other (erase key entries) = if other = key then none else get? other entries := by
  by_cases hother : other = key
  · subst hother
    rw [if_pos rfl, get?_eq_none_iff, keys_erase]
    exact hkeys.not_mem_erase
  · rw [if_neg hother]
    clear hkeys
    induction entries with
    | nil => rfl
    | cons entry rest ih =>
      by_cases hentry : entry.1 = key
      · have hne : entry.1 ≠ other := fun he => hother (he.symm.trans hentry)
        rw [erase, List.eraseP_cons_of_pos (by simpa using hentry), get?_cons, if_neg hne]
      · rw [erase, List.eraseP_cons_of_neg (by simpa using hentry), get?_cons, get?_cons]
        split
        · rfl
        · exact ih

theorem erase_of_not_mem (h : key ∉ keys entries) : erase key entries = entries := by
  refine List.eraseP_of_forall_not fun entry hentry he => ?_
  have hkey : entry.1 = key := by simpa using he
  exact h (hkey ▸ mem_keys_of_mem hentry)

theorem erase_eq_filter (hkeys : (keys entries).Nodup) :
    erase key entries = entries.filter fun entry => entry.1 ≠ key := by
  induction entries with
  | nil => rfl
  | cons entry rest ih =>
    obtain ⟨hnew, hrest⟩ := nodup_keys_cons.1 hkeys
    by_cases hentry : entry.1 = key
    · have hrest' : rest.filter (fun entry => decide (entry.1 ≠ key)) = rest := by
        rw [List.filter_eq_self]
        intro other hother
        have hne : other.1 ≠ key := by
          intro he
          exact hnew (hentry.trans he.symm ▸ mem_keys_of_mem hother)
        exact decide_eq_true hne
      rw [erase, List.eraseP_cons_of_pos (by simpa using hentry),
        List.filter_cons_of_neg (by simpa using hentry), hrest']
    · rw [erase, List.eraseP_cons_of_neg (by simpa using hentry),
        List.filter_cons_of_pos (by simpa using hentry)]
      congr 1
      exact ih hrest

theorem erase_split {before after : Entries α} (h : key ∉ keys before) :
    erase key (before ++ (key, value) :: after) = before ++ after := by
  rw [erase, List.eraseP_append_right, List.eraseP_cons_of_pos (by simp)]
  intro entry hentry he
  have hkey : entry.1 = key := by simpa using he
  exact h (hkey ▸ mem_keys_of_mem hentry)

theorem rename_of_not_mem {old new : Text} (h : old ∉ keys entries) :
    rename old new entries = entries := by
  refine (List.map_congr_left fun entry hentry => ?_).trans (List.map_id entries)
  have hne : entry.1 ≠ old := by
    rintro rfl
    exact h (mem_keys_of_mem hentry)
  rw [if_neg hne, id]

theorem rename_split {old new : Text} {before after : Entries α} (hbefore : old ∉ keys before)
    (hafter : old ∉ keys after) :
    rename old new (before ++ (old, value) :: after) = before ++ (new, value) :: after := by
  have happend : rename old new (before ++ (old, value) :: after) =
      rename old new before ++ (new, value) :: rename old new after := by
    simp [rename]
  rw [happend, rename_of_not_mem hbefore, rename_of_not_mem hafter]

theorem mem_of_mem_rename {old new : Text} {entry : Text × α}
    (h : entry ∈ rename old new entries) : ∃ e ∈ entries, entry.2 = e.2 := by
  obtain ⟨e, he, rfl⟩ := List.mem_map.1 h
  refine ⟨e, he, ?_⟩
  split <;> rfl

end InterfaceForms.Entries

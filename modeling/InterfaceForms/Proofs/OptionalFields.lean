import InterfaceForms.Proofs.Entries
import InterfaceForms.Edit

/-!
# Optional fields of an object

Making a field present writes the whole object in the order of its schema, and making it absent
keeps the order there is. What an edit leaves is described by its keys in their order
(`keys_place`) and by the value of each key (`get?_place`); both are the same whichever of two
fields comes first, and an object is known from them.

* `Edit.placeKeys_comm`: two changes of keys commute.
* `Edit.setOptional_comm`: two edits of different fields commute, the order of keys included.
-/

namespace InterfaceForms.Edit

/-! ## Keys in the order of a schema -/

theorem filter_eraseDups (p : Text → Bool) (names : List Text) :
    names.eraseDups.filter p = (names.filter p).eraseDups := by
  induction names using List.reverseRecOn with
  | nil => rfl
  | append_singleton names name ih =>
    rw [List.eraseDups_append, List.filter_append, ih, List.filter_append, List.eraseDups_append]
    by_cases hname : name ∈ names <;> by_cases hp : p name = true <;>
      simp [hname, hp, List.removeAll, List.eraseDups_cons]

theorem nodup_eraseDups (names : List Text) : names.eraseDups.Nodup := by
  have h := Entries.nodup_keys_ofList (names.map fun name => (name, ()))
  rw [Entries.keys_ofList] at h
  simpa [Entries.keys, Function.comp_def] using h

/-- The names that are among the keys, in their order and each once, and then the other keys. -/
def arrange (names keys : List Text) : List Text :=
  (names.filter keys.contains).eraseDups ++ keys.filter fun key => !names.contains key

section Arrange

variable {names keys : List Text} {f g : Text}

theorem arrange_eq : arrange names keys =
    (names.filter (· ∈ keys)).eraseDups ++ keys.filter (· ∉ names) := by
  have hkeys : keys.contains = fun name => decide (name ∈ keys) :=
    funext fun name => List.contains_eq_mem name keys
  simp only [arrange, hkeys, List.contains_eq_mem, decide_not]

theorem mem_arrange {key : Text} : key ∈ arrange names keys ↔ key ∈ keys := by
  rw [arrange_eq, List.mem_append, List.mem_eraseDups, List.mem_filter, List.mem_filter]
  by_cases hname : key ∈ names <;> simp [hname]

theorem nodup_arrange (hkeys : keys.Nodup) : (arrange names keys).Nodup := by
  rw [arrange_eq]
  refine List.Nodup.append (nodup_eraseDups _) (hkeys.filter _) ?_
  intro key hknown hunknown
  rw [List.mem_eraseDups, List.mem_filter] at hknown
  rw [List.mem_filter, decide_eq_true_eq] at hunknown
  exact hunknown.2 hknown.1

theorem filter_arrange :
    (arrange names keys).filter (· ∉ names) = keys.filter (· ∉ names) := by
  have hknown : ((names.filter (· ∈ keys)).eraseDups).filter (· ∉ names) = [] := by
    rw [List.filter_eq_nil_iff]
    intro key hkey
    rw [List.mem_eraseDups, List.mem_filter] at hkey
    simpa using hkey.1
  rw [arrange_eq, List.filter_append, hknown, List.nil_append, List.filter_filter]
  simp

/-- The arrangement depends on which keys there are, and on the order of those without a name. -/
theorem arrange_congr {other : List Text} (hmem : ∀ key, key ∈ keys ↔ key ∈ other)
    (hunknown : keys.filter (· ∉ names) = other.filter (· ∉ names)) :
    arrange names keys = arrange names other := by
  rw [arrange_eq, arrange_eq, hunknown]
  simp only [hmem]

theorem filter_cons_of_mem (hf : f ∈ names) :
    (f :: keys).filter (· ∉ names) = keys.filter (· ∉ names) := by
  rw [List.filter_cons_of_neg (by simpa using hf)]

theorem arrange_cons_arrange (hf : f ∈ names) :
    arrange names (f :: arrange names keys) = arrange names (f :: keys) := by
  refine arrange_congr ?_ ?_
  · intro key
    rw [List.mem_cons, List.mem_cons, mem_arrange]
  · rw [filter_cons_of_mem hf, filter_cons_of_mem hf, filter_arrange]

theorem arrange_swap (hf : f ∈ names) (hg : g ∈ names) :
    arrange names (f :: g :: keys) = arrange names (g :: f :: keys) := by
  refine arrange_congr ?_ ?_
  · intro key
    simp only [List.mem_cons]
    exact or_left_comm
  · simp only [filter_cons_of_mem hf, filter_cons_of_mem hg]

/-- A key can be erased before the arrangement as well as after it. -/
theorem erase_arrange (hkeys : keys.Nodup) :
    (arrange names keys).erase g = arrange names (keys.erase g) := by
  rw [(nodup_arrange hkeys).erase_eq_filter, hkeys.erase_eq_filter, arrange_eq, arrange_eq,
    List.filter_append, filter_eraseDups, List.filter_filter, List.filter_filter,
    List.filter_filter]
  congr 2
  · refine List.filter_congr fun key _ => ?_
    simp only [List.mem_filter, Bool.decide_and, Bool.decide_eq_true, Bool.and_comm]
  · funext key
    exact Bool.and_comm _ _

end Arrange

/-! ## What an edit does to the keys -/

/-- The keys after a field has been made present or absent. -/
def placeKeys (names : List Text) (field : Text) (present : Bool) (keys : List Text) : List Text :=
  if present then if keys.contains field then keys else arrange names (field :: keys)
  else keys.erase field

section PlaceKeys

variable {names keys : List Text} {f g key : Text} {present p q : Bool}

theorem placeKeys_eq : placeKeys names f present keys =
    if present then if f ∈ keys then keys else arrange names (f :: keys) else keys.erase f := by
  simp only [placeKeys, List.contains_eq_mem, decide_eq_true_eq]

theorem nodup_placeKeys (hkeys : keys.Nodup) : (placeKeys names f present keys).Nodup := by
  rw [placeKeys_eq]
  split
  · split
    · exact hkeys
    · rename_i hnew
      exact nodup_arrange (List.nodup_cons.2 ⟨hnew, hkeys⟩)
  · exact hkeys.erase f

theorem mem_placeKeys_of_ne (hne : key ≠ f) :
    key ∈ placeKeys names f present keys ↔ key ∈ keys := by
  rw [placeKeys_eq]
  split
  · split
    · exact Iff.rfl
    · rw [mem_arrange, List.mem_cons, or_iff_right hne]
  · exact List.mem_erase_of_ne hne

theorem placeKeys_of_mem (hf : f ∈ keys) : placeKeys names f true keys = keys := by
  rw [placeKeys_eq, if_pos rfl, if_pos hf]

theorem placeKeys_of_not_mem (hf : f ∉ keys) :
    placeKeys names f true keys = arrange names (f :: keys) := by
  rw [placeKeys_eq, if_pos rfl, if_neg hf]

theorem placeKeys_false : placeKeys names f false keys = keys.erase f := rfl

/-- One field made present, another one made absent. -/
theorem placeKeys_true_false (hne : f ≠ g) (hkeys : keys.Nodup) :
    placeKeys names f true (placeKeys names g false keys) =
      placeKeys names g false (placeKeys names f true keys) := by
  have hmem : f ∈ keys.erase g ↔ f ∈ keys := List.mem_erase_of_ne hne
  rw [placeKeys_false, placeKeys_false]
  by_cases hf : f ∈ keys
  · rw [placeKeys_of_mem hf, placeKeys_of_mem (hmem.2 hf)]
  · rw [placeKeys_of_not_mem hf, placeKeys_of_not_mem (mt hmem.1 hf),
      erase_arrange (List.nodup_cons.2 ⟨hf, hkeys⟩), List.erase_cons_tail (by simpa using hne)]

/-- Two fields made present. -/
theorem placeKeys_true_true (hf : f ∈ names) (hg : g ∈ names) (hne : f ≠ g) :
    placeKeys names f true (placeKeys names g true keys) =
      placeKeys names g true (placeKeys names f true keys) := by
  have hfmem : f ∈ placeKeys names g true keys ↔ f ∈ keys := mem_placeKeys_of_ne hne
  have hgmem : g ∈ placeKeys names f true keys ↔ g ∈ keys := mem_placeKeys_of_ne hne.symm
  by_cases hfkeys : f ∈ keys
  · rw [placeKeys_of_mem (hfmem.2 hfkeys), placeKeys_of_mem hfkeys]
  · by_cases hgkeys : g ∈ keys
    · rw [placeKeys_of_mem (hgmem.2 hgkeys), placeKeys_of_mem hgkeys]
    · rw [placeKeys_of_not_mem (mt hfmem.1 hfkeys), placeKeys_of_not_mem (mt hgmem.1 hgkeys),
        placeKeys_of_not_mem hfkeys, placeKeys_of_not_mem hgkeys, arrange_cons_arrange hf,
        arrange_cons_arrange hg, arrange_swap hf hg]

theorem placeKeys_comm (hf : f ∈ names) (hg : g ∈ names) (hne : f ≠ g) (hkeys : keys.Nodup) :
    placeKeys names f p (placeKeys names g q keys) =
      placeKeys names g q (placeKeys names f p keys) := by
  cases p <;> cases q
  · exact List.erase_comm g f
  · exact (placeKeys_true_false hne.symm hkeys).symm
  · exact placeKeys_true_false hne hkeys
  · exact placeKeys_true_true hf hg hne

end PlaceKeys

/-! ## Entries by name -/

/-- The names that have a value, each with it. -/
def select (names : List Text) (value? : Text → Option Value) : Entries Value :=
  names.filterMap fun name => (value? name).map fun v => (name, v)

section Select

variable {names : List Text} {value? : Text → Option Value} {entries : Entries Value} {key : Text}

theorem select_cons (name : Text) : select (name :: names) value? =
    match value? name with
    | some v => (name, v) :: select names value?
    | none => select names value? := by
  rw [select, List.filterMap_cons]
  cases value? name <;> rfl

theorem keys_select : Entries.keys (select names value?) =
    names.filter fun name => (value? name).isSome := by
  induction names with
  | nil => rfl
  | cons name names ih =>
    rw [select_cons, List.filter_cons, ← ih]
    cases value? name <;> rfl

theorem get?_select :
    Entries.get? key (select names value?) = if key ∈ names then value? key else none := by
  induction names with
  | nil => rfl
  | cons name names ih =>
    have hcons : Entries.get? key (select (name :: names) value?) =
        if name = key then (value? key).or (Entries.get? key (select names value?))
        else Entries.get? key (select names value?) := by
      rw [select_cons]
      cases hvalue : value? name with
      | none => grind
      | some v => grind [Entries.get?_cons]
    rw [hcons, ih]
    grind

theorem get?_ofList_select : Entries.get? key (Entries.ofList (select names value?)) =
    if key ∈ names then value? key else none := by
  have hreverse : (select names value?).reverse = select names.reverse value? :=
    List.filterMap_reverse.symm
  rw [Entries.get?_ofList, hreverse, get?_select]
  simp only [List.mem_reverse]

theorem get?_filter_not_mem :
    Entries.get? key (entries.filter fun entry => entry.1 ∉ names) =
      if key ∈ names then none else Entries.get? key entries := by
  induction entries with
  | nil => split <;> rfl
  | cons entry rest ih =>
    rw [List.filter_cons, Entries.get?_cons]
    grind [Entries.get?_cons]

end Select

/-! ## What an edit does to the entries -/

section Place

variable {fields : List Schema} {field key : Text} {value : Value} {entries : Entries Value}
  {present : Bool}

theorem insertField_eq : insertField fields field value entries =
    Entries.ofList (select (fields.map (·.name)) fun name =>
        if name = field then some value else Entries.get? name entries) ++
      entries.filter fun entry => entry.1 ∉ fields.map (·.name) := by
  have hknown : (select (fields.map (·.name)) fun name =>
        if name = field then some value else Entries.get? name entries) =
      fields.filterMap fun f => if f.name = field then some (f.name, value)
        else (Entries.get? f.name entries).map fun v => (f.name, v) := by
    rw [select, List.filterMap_map]
    refine List.filterMap_congr fun f _ => ?_
    by_cases hname : f.name = field <;> simp [hname]
  have hunknown : ∀ entry : Text × Value,
      (!fields.any fun f => f.name = entry.1) = decide (entry.1 ∉ fields.map (·.name)) := by
    intro entry
    rw [Bool.eq_iff_iff]
    simp
  rw [insertField, hknown]
  simp only [hunknown]

theorem keys_insertField (hfield : field ∈ fields.map (·.name)) :
    Entries.keys (insertField fields field value entries) =
    arrange (fields.map (·.name)) (field :: Entries.keys entries) := by
  have hvalue : ∀ name, (if name = field then some value else Entries.get? name entries).isSome =
      decide (name ∈ field :: Entries.keys entries) := by
    intro name
    rw [Bool.eq_iff_iff, decide_eq_true_eq, List.mem_cons]
    by_cases hname : name = field
    · simp [hname]
    · rw [if_neg hname, Option.isSome_iff_ne_none, Ne, Entries.get?_eq_none_iff, not_not,
        or_iff_right hname]
  have hunknown : Entries.keys (entries.filter fun entry => entry.1 ∉ fields.map (·.name)) =
      (Entries.keys entries).filter (· ∉ fields.map (·.name)) := by
    rw [Entries.keys, Entries.keys, List.filter_map]
    rfl
  rw [insertField_eq, Entries.keys_append, Entries.keys_ofList, keys_select, arrange_eq,
    filter_cons_of_mem hfield, hunknown]
  simp only [hvalue]

theorem get?_insertField (hfield : field ∈ fields.map (·.name)) :
    Entries.get? key (insertField fields field value entries) =
      if key = field then some value else Entries.get? key entries := by
  rw [insertField_eq, Entries.get?_append_or, get?_ofList_select, get?_filter_not_mem]
  by_cases hkey : key ∈ fields.map (·.name)
  · rw [if_pos hkey, if_pos hkey, Option.or_none]
  · have hne : key ≠ field := fun he => hkey (he ▸ hfield)
    rw [if_neg hkey, if_neg hkey, if_neg hne, Option.none_or]

/-- The entries after a field of the schema has been made present or absent. -/
def place (fields : List Schema) (field : Text) (value : Value) (present : Bool)
    (entries : Entries Value) : Entries Value :=
  if present then
    if Entries.contains field entries then entries else insertField fields field value entries
  else Entries.erase field entries

theorem place_eq : place fields field value present entries =
    if present then
      if field ∈ Entries.keys entries then entries else insertField fields field value entries
    else Entries.erase field entries := by
  simp only [place, Entries.contains_iff]

theorem keys_place (hfield : field ∈ fields.map (·.name)) :
    Entries.keys (place fields field value present entries) =
    placeKeys (fields.map (·.name)) field present (Entries.keys entries) := by
  rw [place_eq, placeKeys_eq]
  split
  · split
    · rfl
    · exact keys_insertField hfield
  · exact Entries.keys_erase field entries

theorem nodup_place (hfield : field ∈ fields.map (·.name)) (hkeys : (Entries.keys entries).Nodup) :
    (Entries.keys (place fields field value present entries)).Nodup := by
  rw [keys_place hfield]
  exact nodup_placeKeys hkeys

theorem get?_place (hfield : field ∈ fields.map (·.name)) (hkeys : (Entries.keys entries).Nodup) :
    Entries.get? key (place fields field value present entries) =
      if key = field then
        if present then some ((Entries.get? field entries).getD value) else none
      else Entries.get? key entries := by
  rw [place_eq]
  cases present with
  | false => exact Entries.get?_erase hkeys
  | true =>
    rw [if_pos rfl, if_pos rfl]
    by_cases hmem : field ∈ Entries.keys entries
    · rw [if_pos hmem]
      by_cases hkey : key = field
      · subst hkey
        cases hget : Entries.get? key entries with
        | none => exact absurd hmem (Entries.get?_eq_none_iff.1 hget)
        | some v => rw [if_pos rfl, Option.getD_some]
      · rw [if_neg hkey]
    · rw [if_neg hmem, get?_insertField hfield, Entries.get?_eq_none_iff.2 hmem, Option.getD_none]

theorem place_comm {f g : Text} {a b : Value} {p q : Bool} (hf : f ∈ fields.map (·.name))
    (hg : g ∈ fields.map (·.name)) (hne : f ≠ g) (hkeys : (Entries.keys entries).Nodup) :
    place fields g b q (place fields f a p entries) =
      place fields f a p (place fields g b q entries) := by
  refine Entries.ext ?_ (nodup_place hg (nodup_place hf hkeys)) ?_
  · rw [keys_place hg, keys_place hf, keys_place hf, keys_place hg]
    exact placeKeys_comm hg hf hne.symm hkeys
  · intro key
    rw [get?_place hg (nodup_place hf hkeys), get?_place hf (nodup_place hg hkeys),
      get?_place hf hkeys, get?_place hg hkeys, get?_place hf hkeys, get?_place hg hkeys,
      if_neg hne, if_neg hne.symm]
    by_cases hkf : key = f
    · subst hkf
      rw [if_neg hne, if_pos rfl, if_pos rfl]
    · rw [if_neg hkf, if_neg hkf]

end Place

/-! ## Two edits -/

section SetOptional

variable {schema : Schema} {fields : List Schema} {f g : Text} {p q : Bool}
  {entries : Entries Value}

/-- An edit of a field of the schema succeeds on every object. -/
theorem setOptional_eq_place {target : Schema} (hfields : schema.fields? = some fields)
    (htarget : schema.field? f = some target) :
    setOptional schema f p (.object entries) =
      .ok ((), .object (place fields f target.default p entries)) := by
  have hfind : fields.find? (·.name = f) = some target := by
    simpa [Schema.field?, hfields] using htarget
  simp only [setOptional, hfields, hfind, Edit.entries, bind, Except.bind, pure, Except.pure]
  cases p with
  | false => rfl
  | true =>
    simp only [Bool.not_true, Bool.false_eq_true, if_false, place, if_true]
    split <;> rfl

theorem exists_setOptional (hfields : schema.fields? = some fields)
    (hf : f ∈ fields.map (·.name)) :
    ∃ value, ∀ p entries, setOptional schema f p (.object entries) =
      .ok ((), .object (place fields f value p entries)) := by
  obtain ⟨field, hfield, rfl⟩ := List.mem_map.1 hf
  obtain ⟨target, htarget⟩ : ∃ target, fields.find? (·.name = field.name) = some target := by
    refine Option.isSome_iff_exists.1 (List.find?_isSome.2 ⟨field, hfield, ?_⟩)
    exact decide_eq_true rfl
  refine ⟨target.default, fun p entries => setOptional_eq_place hfields ?_⟩
  simpa [Schema.field?, hfields] using htarget

/-- Edits of two different fields commute: made in either order they succeed and leave the same
object, with its keys in the same order. -/
theorem setOptional_comm (hfields : schema.fields? = some fields)
    (hf : f ∈ fields.map (·.name)) (hg : g ∈ fields.map (·.name)) (hne : f ≠ g)
    (hkeys : (Entries.keys entries).Nodup) :
    ∃ v, (setOptional schema f p (.object entries) >>= fun r => setOptional schema g q r.2) =
        .ok ((), v) ∧
      (setOptional schema g q (.object entries) >>= fun r => setOptional schema f p r.2) =
        .ok ((), v) := by
  obtain ⟨a, ha⟩ := exists_setOptional hfields hf
  obtain ⟨b, hb⟩ := exists_setOptional hfields hg
  refine ⟨.object (place fields g b q (place fields f a p entries)), ?_, ?_⟩
  · rw [ha]
    exact hb q _
  · rw [hb, place_comm hf hg hne hkeys]
    exact ha p _

/-- The fields `a?`, `b` and `c?`, and the field `a?` a second time. -/
def repeatedFields : List Schema :=
  [⟨"a".toList, true, none, .string⟩, ⟨"b".toList, false, none, .number⟩,
    ⟨"c".toList, true, none, .boolean⟩, ⟨"a".toList, true, none, .number⟩]

/-- The fields `c` and `b`, out of the order of the schema, and a key that it does not know. -/
def strayEntries : Entries Value :=
  [("c".toList, .bool true), ("z".toList, .null), ("b".toList, .int 1)]

theorem setOptional_comm_strayEntries :
    (Schema.anonymous (.object repeatedFields)).fields? = some repeatedFields ∧
    "a".toList ∈ repeatedFields.map (·.name) ∧ "c".toList ∈ repeatedFields.map (·.name) ∧
    "a".toList ≠ "c".toList ∧ (Entries.keys strayEntries).Nodup ∧
    ∃ v,
      (setOptional (.anonymous (.object repeatedFields)) "a".toList true (.object strayEntries) >>=
        fun r => setOptional (.anonymous (.object repeatedFields)) "c".toList false r.2) =
        .ok ((), v) ∧
      (setOptional (.anonymous (.object repeatedFields)) "c".toList false (.object strayEntries) >>=
        fun r => setOptional (.anonymous (.object repeatedFields)) "a".toList true r.2) =
        .ok ((), v) := by
  have ha : "a".toList ∈ repeatedFields.map (·.name) := by decide
  have hc : "c".toList ∈ repeatedFields.map (·.name) := by decide
  have hne : "a".toList ≠ "c".toList := by decide
  have hkeys : (Entries.keys strayEntries).Nodup := by decide
  exact ⟨rfl, ha, hc, hne, hkeys, setOptional_comm rfl ha hc hne hkeys⟩

end SetOptional

end InterfaceForms.Edit

import InterfaceForms.Proofs.Entries
import InterfaceForms.Proofs.Nodes
import InterfaceForms.Schema.Value

/-!
# Schemas read back

The entries of a schema and those of its kind share one object, in which what says nothing is left
out. No two of them have the same key, so each is found again, and the schema with them. Reading
looks entries up by their keys and does not depend on their order.

* `Schema.ofValue?_object`: a schema is put together from what is found at its keys.
* `Schema.ofValue?_toValue`: a schema is read back from the value that it is written as.
* `Value.Same.alike`: values that differ in the order of entries are read alike.
* `Schema.toValue_lossless`: different schemas are written as different values.
-/

namespace InterfaceForms

/-! ## What is found in an object -/

namespace Value

theorem getOr_eq {α : Type} (entries : Entries Value) (key : Text) (read : Value → Option α)
    (default : α) : getOr entries key read default =
      (Entries.get? key entries).elim (some default) read := by
  rw [getOr]
  cases Entries.get? key entries with
  | none => rfl
  | some v => rfl

def items? : Value → Option (List Value)
  | .array items => some items
  | _ => none

/-- The texts in an array of texts. -/
def texts? (v : Value) : Option (List Text) := v.items?.bind (·.mapM text?)

/-- The schemas in an array of schemas. -/
def schemas? (v : Value) : Option (List Schema) := v.items?.bind (·.mapM Schema.ofValue?)

end Value

/-- What is read at the keys of a schema. -/
structure Lookup where
  name : Option Text
  optional : Option Bool
  description : Option (Option Text)
  tag : Option Text
  values : Option (List Text)
  branches : Option (List Schema)
  fields : Option (List Schema)
  item : Option Schema

namespace Lookup

def ofEntries (entries : Entries Value) : Lookup where
  name := Value.getOr entries "name".toList Value.text? []
  optional := Value.getOr entries "isOptional".toList Value.bool? false
  description := Value.getOr entries "description".toList (fun v => v.text?.map some) none
  tag := (Entries.get? "type".toList entries).bind Value.text?
  values := (Entries.get? "enumValues".toList entries).bind Value.texts?
  branches := (Entries.get? "unionTypes".toList entries).bind Value.schemas?
  fields := (Entries.get? "fields".toList entries).bind Value.schemas?
  item := (Entries.get? "itemType".toList entries).bind Schema.ofValue?

/-- The kind of the tag, with what is found for it. -/
def kind? (l : Lookup) : Option Kind :=
  l.tag.bind fun tag =>
    if tag = "string".toList then some .string
    else if tag = "number".toList then some .number
    else if tag = "boolean".toList then some .boolean
    else if tag = "enum".toList then l.values.map .enum
    else if tag = "union".toList then l.branches.map .union
    else if tag = "object".toList then l.fields.map .object
    else if tag = "array".toList then l.item.map .array
    else if tag = "record".toList then l.item.map .record
    else none

/-- What is found for a kind that has the tag of the given one. -/
def refill? (l : Lookup) : Kind → Option Kind
  | .string => some .string
  | .number => some .number
  | .boolean => some .boolean
  | .enum _ => l.values.map .enum
  | .union _ => l.branches.map .union
  | .object _ => l.fields.map .object
  | .array _ => l.item.map .array
  | .record _ => l.item.map .record

theorem kind?_of_tag {l : Lookup} {k : Kind} (h : l.tag = some k.tag.toList) :
    l.kind? = l.refill? k := by
  cases k
  all_goals
    simp only [Kind.tag] at h
    rw [kind?, h]
    rfl

def schema? (l : Lookup) : Option Schema := do
  let name ← l.name
  let optional ← l.optional
  let description ← l.description
  let kind ← l.kind?
  return ⟨name, optional, description, kind⟩

end Lookup

namespace Schema

theorem kind?_ofEntries (entries : Entries Value) {item? : Text → Option Schema}
    {items? : Text → Option (List Schema)}
    (hitem : ∀ key, item? key = (Entries.get? key entries).bind ofValue?)
    (hitems : ∀ key, items? key = (Entries.get? key entries).bind Value.schemas?) :
    Kind.ofEntries? entries item? items? = (Lookup.ofEntries entries).kind? := by
  have hmap : ∀ {α β : Type} (o : Option α) (f : α → β), (o.bind fun a => some (f a)) = o.map f :=
    fun o f => Option.map_eq_bind.symm
  unfold Kind.ofEntries? Lookup.kind? Lookup.ofEntries
  simp only [hitem, hitems, Option.bind_eq_bind, Option.pure_def, hmap]
  rw [← Option.bind_assoc]
  refine Option.bind_congr fun tag _ => ?_
  -- Only the texts of an enum are read in the object itself.
  refine ite_congr rfl (fun _ => rfl) fun _ => ite_congr rfl (fun _ => rfl) fun _ =>
    ite_congr rfl (fun _ => rfl) fun _ => ite_congr rfl (fun _ => ?_) fun _ => rfl
  rw [Option.map_bind]
  refine Option.bind_congr fun v _ => ?_
  cases v
  all_goals rfl

theorem ofValue?_object (entries : Entries Value) :
    ofValue? (.object entries) = (Lookup.ofEntries entries).schema? := by
  rw [ofValue?, Lookup.schema?]
  refine bind_congr fun name => bind_congr fun optional => bind_congr fun description => ?_
  rw [kind?_ofEntries entries]
  · intro key
    split
    · rename_i h
      rw [h]
      rfl
    · rename_i h
      rw [h]
      rfl
  · intro key
    split
    · rename_i items h
      rw [h, List.mapM_subtype (fun _ _ => rfl), List.unattach_attach]
      rfl
    · rename_i hnone
      cases h : Entries.get? key entries with
      | none => rfl
      | some v =>
        cases v with
        | array items => exact absurd h (hnone items)
        | _ => rfl

theorem ofValue?_array (items : List Value) : ofValue? (.array items) = none := by
  rw [ofValue?]
  intro entries h
  cases h

/-! ## Reading what is written -/

/-- The keys that do not depend on the kind. -/
def labelKeys : List Text := ["name".toList, "isOptional".toList, "description".toList]

/-- The entries that tell the kind and what it holds. -/
def kindEntries (k : Kind) : Entries Value := ("type".toList, .string k.tag.toList) :: payload k

theorem toValue_eq (s : Schema) : s.toValue = .object (s.labelEntries ++ kindEntries s.kind) := by
  obtain ⟨name, optional, description, kind⟩ := s
  rw [toValue]
  rfl

theorem keys_labelEntries (s : Schema) : (Entries.keys s.labelEntries).Sublist labelKeys := by
  have hsplit : labelKeys = ["name".toList] ++ ["isOptional".toList] ++ ["description".toList] := rfl
  rw [hsplit, labelEntries, Entries.keys_append, Entries.keys_append]
  refine (List.Sublist.append ?_ ?_).append ?_
  · split
    · exact List.nil_sublist _
    · exact List.Sublist.refl _
  · split
    · exact List.Sublist.refl _
    · exact List.nil_sublist _
  · cases s.description with
    | none => exact List.nil_sublist _
    | some d => exact List.Sublist.refl _

/-- The keys of the entries of a kind. -/
def kindKeys : List (List Text) := [["type".toList], ["type".toList, "enumValues".toList],
  ["type".toList, "unionTypes".toList], ["type".toList, "fields".toList],
  ["type".toList, "itemType".toList]]

theorem keys_kindEntries (k : Kind) : Entries.keys (kindEntries k) ∈ kindKeys := by
  cases k with
  | string | number | boolean =>
    show ["type".toList] ∈ kindKeys
    decide
  | enum =>
    show ["type".toList, "enumValues".toList] ∈ kindKeys
    decide
  | union =>
    show ["type".toList, "unionTypes".toList] ∈ kindKeys
    decide
  | object =>
    show ["type".toList, "fields".toList] ∈ kindKeys
    decide
  | array | record =>
    show ["type".toList, "itemType".toList] ∈ kindKeys
    decide

/-- The keys of a schema are distinct, whatever its kind. -/
theorem nodup_keys (s : Schema) :
    (Entries.keys (s.labelEntries ++ kindEntries s.kind)).Nodup := by
  have hall : ∀ keys ∈ kindKeys, (labelKeys ++ keys).Nodup := by decide
  rw [Entries.keys_append]
  exact (hall _ (keys_kindEntries s.kind)).sublist (s.keys_labelEntries.append_right _)

/-- The label is read from its own entries, where a missing key says what was left out. -/
theorem getOr_labelEntries (s : Schema) :
    Value.getOr s.labelEntries "name".toList Value.text? [] = some s.name ∧
    Value.getOr s.labelEntries "isOptional".toList Value.bool? false = some s.optional ∧
    Value.getOr s.labelEntries "description".toList (fun v => v.text?.map some) none =
      some s.description := by
  obtain ⟨name, optional, description, kind⟩ := s
  cases name
  all_goals cases optional
  all_goals cases description
  all_goals exact ⟨rfl, rfl, rfl⟩

theorem getOr_append {α : Type} {before rest : Entries Value} {key : Text}
    (h : key ∉ Entries.keys rest) (read : Value → Option α) (default : α) :
    Value.getOr (before ++ rest) key read default = Value.getOr before key read default := by
  rw [Value.getOr, Value.getOr, Entries.get?_append_or, Entries.get?_eq_none_iff.2 h,
    Option.or_none]

/-- The kind is read from its own entries. -/
theorem kind?_labelEntries (s : Schema) (rest : Entries Value) :
    (Lookup.ofEntries (s.labelEntries ++ rest)).kind? = (Lookup.ofEntries rest).kind? := by
  have hget : ∀ key, key ∉ labelKeys →
      Entries.get? key (s.labelEntries ++ rest) = Entries.get? key rest := by
    intro key hkey
    exact Entries.get?_append fun hmem => hkey (s.keys_labelEntries.subset hmem)
  unfold Lookup.kind? Lookup.ofEntries
  rw [hget "type".toList (by decide), hget "enumValues".toList (by decide),
    hget "unionTypes".toList (by decide), hget "fields".toList (by decide),
    hget "itemType".toList (by decide)]

/-- A schema is read back when its kind is. -/
theorem ofValue?_of_kind {s : Schema}
    (h : (Lookup.ofEntries (kindEntries s.kind)).kind? = some s.kind) :
    ofValue? s.toValue = some s := by
  have hnot : ∀ keys ∈ kindKeys, ∀ key ∈ labelKeys, key ∉ keys := by decide
  have hlabel := fun key hkey => hnot _ (keys_kindEntries s.kind) key hkey
  obtain ⟨hname, hoptional, hdescription⟩ := s.getOr_labelEntries
  rw [toValue_eq, ofValue?_object, Lookup.schema?, kind?_labelEntries, h]
  unfold Lookup.ofEntries
  rw [getOr_append (hlabel _ (by decide)), getOr_append (hlabel _ (by decide)),
    getOr_append (hlabel _ (by decide)), hname, hoptional, hdescription]
  cases s
  rfl

theorem mapM_map_eq_some {α β : Type} {f : β → Option α} {g : α → β} {l : List α}
    (h : ∀ a ∈ l, f (g a) = some a) : (l.map g).mapM f = some l := by
  induction l with
  | nil => rfl
  | cons a l ih =>
    obtain ⟨ha, hl⟩ := List.forall_mem_cons.1 h
    rw [List.map_cons, List.mapM_cons, ha, ih hl]
    rfl

/-- A kind is read back from its entries. -/
theorem kind?_kindEntries (k : Kind) : (Lookup.ofEntries (kindEntries k)).kind? = some k := by
  have htag : ∀ k, (Lookup.ofEntries (kindEntries k)).kind? =
      (Lookup.ofEntries (kindEntries k)).refill? k := fun k => Lookup.kind?_of_tag rfl
  have hschemas : ∀ schemas : List Schema,
      (∀ s ∈ schemas, (Lookup.ofEntries (kindEntries s.kind)).kind? = some s.kind) →
      (Value.array (toValues schemas)).schemas? = some schemas := by
    intro schemas h
    rw [toValues_eq]
    exact mapM_map_eq_some fun s hs => ofValue?_of_kind (h s hs)
  induction k with
  | string | number | boolean => rw [htag, Lookup.refill?]
  | enum values =>
    have hvalues : (Lookup.ofEntries (kindEntries (.enum values))).values = some values :=
      mapM_map_eq_some fun _ _ => rfl
    rw [htag, Lookup.refill?, hvalues, Option.map_some]
  | union branches ih =>
    have hbranches : (Lookup.ofEntries (kindEntries (.union branches))).branches = some branches :=
      hschemas branches ih
    rw [htag, Lookup.refill?, hbranches, Option.map_some]
  | object fields ih =>
    have hfields : (Lookup.ofEntries (kindEntries (.object fields))).fields = some fields :=
      hschemas fields ih
    rw [htag, Lookup.refill?, hfields, Option.map_some]
  | array item ih =>
    have hitem : (Lookup.ofEntries (kindEntries (.array item))).item = some item :=
      ofValue?_of_kind ih
    rw [htag, Lookup.refill?, hitem, Option.map_some]
  | record item ih =>
    have hitem : (Lookup.ofEntries (kindEntries (.record item))).item = some item :=
      ofValue?_of_kind ih
    rw [htag, Lookup.refill?, hitem, Option.map_some]

/-- A schema is read back from the value that it is written as. -/
theorem ofValue?_toValue (s : Schema) : ofValue? s.toValue = some s :=
  ofValue?_of_kind (kind?_kindEntries s.kind)

end Schema

/-! ## The order of entries -/

namespace Value

/-- In every object of the value the keys are distinct. -/
inductive Keyed : Value → Prop
  | null : Keyed .null
  | bool (b : Bool) : Keyed (.bool b)
  | number (n : Number) : Keyed (.number n)
  | string (t : Text) : Keyed (.string t)
  | array {items : List Value} (h : ∀ v ∈ items, Keyed v) : Keyed (.array items)
  | object {entries : Entries Value} (hkeys : (Entries.keys entries).Nodup)
    (h : ∀ entry ∈ entries, Keyed entry.2) : Keyed (.object entries)

/-- The values are the same but for the order of the entries in their objects, at any depth. -/
inductive Same : Value → Value → Prop
  | refl (v : Value) : Same v v
  | trans {u v w : Value} : Same u v → Same v w → Same u w
  | order {entries others : Entries Value} (h : entries.Perm others) :
    Same (.object entries) (.object others)
  | item {before after : List Value} {v w : Value} : Same v w →
    Same (.array (before ++ v :: after)) (.array (before ++ w :: after))
  | entry {before after : Entries Value} {key : Text} {v w : Value} : Same v w →
    Same (.object (before ++ (key, v) :: after)) (.object (before ++ (key, w) :: after))

/-- A reader of schemas finds the same in both values. -/
structure Alike (v w : Value) : Prop where
  text : v.text? = w.text?
  bool : v.bool? = w.bool?
  schema : Schema.ofValue? v = Schema.ofValue? w
  texts : v.texts? = w.texts?
  schemas : v.schemas? = w.schemas?

namespace Alike

variable {u v w : Value} {entries others : Entries Value}

theorem refl (v : Value) : Alike v v := ⟨rfl, rfl, rfl, rfl, rfl⟩

theorem rel_refl (found : Option Value) : Option.Rel Alike found found := by
  cases found with
  | none => exact .none
  | some v => exact .some (.refl v)

theorem trans (h : Alike u v) (h' : Alike v w) : Alike u w :=
  ⟨h.text.trans h'.text, h.bool.trans h'.bool, h.schema.trans h'.schema, h.texts.trans h'.texts,
    h.schemas.trans h'.schemas⟩

theorem item (h : Alike v w) (before after : List Value) :
    Alike (.array (before ++ v :: after)) (.array (before ++ w :: after)) where
  text := rfl
  bool := rfl
  schema := by rw [Schema.ofValue?_array, Schema.ofValue?_array]
  texts := by
    show (before ++ v :: after).mapM text? = (before ++ w :: after).mapM text?
    rw [List.mapM_append, List.mapM_append, List.mapM_cons, List.mapM_cons, h.text]
  schemas := by
    show (before ++ v :: after).mapM Schema.ofValue? = (before ++ w :: after).mapM Schema.ofValue?
    rw [List.mapM_append, List.mapM_append, List.mapM_cons, List.mapM_cons, h.schema]

/-- Objects are alike when the same is found at each key. -/
theorem object (h : ∀ key, Option.Rel Alike (Entries.get? key entries) (Entries.get? key others)) :
    Alike (.object entries) (.object others) where
  text := rfl
  bool := rfl
  texts := rfl
  schemas := rfl
  schema := by
    have hfound : ∀ {α : Type} (f : Option Value → α) (key : Text),
        (∀ v w : Value, Alike v w → f (some v) = f (some w)) →
        f (Entries.get? key entries) = f (Entries.get? key others) := by
      intro α f key hf
      have hkey := h key
      generalize Entries.get? key entries = found, Entries.get? key others = found' at hkey
      cases hkey with
      | none => rfl
      | some hvalue => exact hf _ _ hvalue
    have hread : ∀ {α : Type} (read : Value → Option α) (default : α) (key : Text),
        (∀ v w : Value, Alike v w → read v = read w) →
        getOr entries key read default = getOr others key read default := by
      intro α read default key hread
      rw [getOr_eq, getOr_eq]
      exact hfound (fun o => o.elim (some default) read) key hread
    have hlookup : Lookup.ofEntries entries = Lookup.ofEntries others := by
      rw [Lookup.ofEntries, Lookup.ofEntries, Lookup.mk.injEq]
      exact ⟨hread _ _ _ fun _ _ h => h.text, hread _ _ _ fun _ _ h => h.bool,
        hread _ _ _ fun _ _ h => congrArg (Option.map some) h.text,
        hfound (Option.bind · text?) _ fun _ _ h => h.text,
        hfound (Option.bind · texts?) _ fun _ _ h => h.texts,
        hfound (Option.bind · schemas?) _ fun _ _ h => h.schemas,
        hfound (Option.bind · schemas?) _ fun _ _ h => h.schemas,
        hfound (Option.bind · Schema.ofValue?) _ fun _ _ h => h.schema⟩
    rw [Schema.ofValue?_object, Schema.ofValue?_object, hlookup]

end Alike

namespace Same

variable {v w : Value}

/-- A value with distinct keys has them in every order of its entries, and is read alike. -/
theorem alike (h : Same v w) (hkeyed : Keyed v) : Keyed w ∧ Alike v w := by
  induction h with
  | refl v => exact ⟨hkeyed, .refl v⟩
  | trans _ _ ih ih' =>
    obtain ⟨hmid, halike⟩ := ih hkeyed
    obtain ⟨hend, halike'⟩ := ih' hmid
    exact ⟨hend, halike.trans halike'⟩
  | @order entries others hperm =>
    cases hkeyed with
    | object hkeys hvalues =>
      have hothers : (Entries.keys others).Nodup := (hperm.map Prod.fst).nodup_iff.1 hkeys
      refine ⟨.object hothers fun entry hentry => hvalues entry (hperm.mem_iff.2 hentry),
        .object fun key => ?_⟩
      rw [Entries.get?_perm hkeys hperm]
      exact Alike.rel_refl _
  | @item before after v w _ ih =>
    cases hkeyed with
    | array hitems =>
      obtain ⟨hw, halike⟩ := ih (hitems v (by simp))
      refine ⟨.array fun u hu => ?_, halike.item before after⟩
      rcases List.mem_append.1 hu with hu | hu
      · exact hitems u (List.mem_append_left _ hu)
      · rcases List.mem_cons.1 hu with rfl | hu
        · exact hw
        · exact hitems u (List.mem_append_right _ (List.mem_cons_of_mem _ hu))
  | @entry before after key v w _ ih =>
    cases hkeyed with
    | object hkeys hvalues =>
      obtain ⟨hw, halike⟩ := ih (hvalues (key, v) (by simp))
      refine ⟨.object (by simpa [Entries.keys] using hkeys) ?_, .object fun other => ?_⟩
      · intro e he
        rcases List.mem_append.1 he with he | he
        · exact hvalues e (List.mem_append_left _ he)
        · rcases List.mem_cons.1 he with rfl | he
          · exact hw
          · exact hvalues e (List.mem_append_right _ (List.mem_cons_of_mem _ he))
      · rw [Entries.get?_append_or, Entries.get?_append_or, Entries.get?_cons, Entries.get?_cons]
        cases Entries.get? other before with
        | some u => exact Alike.rel_refl _
        | none =>
          simp only [Option.none_or]
          split
          · exact .some halike
          · exact Alike.rel_refl _

end Same

end Value

namespace Schema

theorem keyed_of_kind {s : Schema} (h : ∀ entry ∈ kindEntries s.kind, entry.2.Keyed) :
    s.toValue.Keyed := by
  rw [toValue_eq]
  refine .object s.nodup_keys fun entry hentry => ?_
  rcases List.mem_append.1 hentry with hlabel | hkind
  · simp only [labelEntries, List.mem_append] at hlabel
    rcases hlabel with (hname | hoptional) | hdescription
    · split at hname
      · cases hname
      · obtain rfl := List.mem_singleton.1 hname
        exact .string _
    · split at hoptional
      · obtain rfl := List.mem_singleton.1 hoptional
        exact .bool _
      · cases hoptional
    · split at hdescription
      · cases hdescription
      · obtain rfl := List.mem_singleton.1 hdescription
        exact .string _
  · exact h entry hkind

/-- No key comes twice in what a schema is written as, at any depth. -/
theorem keyed_toValue (s : Schema) : s.toValue.Keyed := by
  suffices hall : ∀ k : Kind, ∀ entry ∈ kindEntries k, entry.2.Keyed from
    keyed_of_kind (hall s.kind)
  have hschemas : ∀ schemas : List Schema,
      (∀ s ∈ schemas, ∀ entry ∈ kindEntries s.kind, entry.2.Keyed) →
      (Value.array (toValues schemas)).Keyed := by
    intro schemas h
    refine .array fun v hv => ?_
    rw [toValues_eq] at hv
    obtain ⟨s, hs, rfl⟩ := List.mem_map.1 hv
    exact keyed_of_kind (h s hs)
  intro k
  induction k with
  | string | number | boolean => exact List.forall_mem_singleton.2 (.string _)
  | enum values =>
    refine List.forall_mem_cons.2 ⟨.string _, List.forall_mem_singleton.2 (.array fun v hv => ?_)⟩
    obtain ⟨t, -, rfl⟩ := List.mem_map.1 hv
    exact .string t
  | union branches ih =>
    exact List.forall_mem_cons.2 ⟨.string _, List.forall_mem_singleton.2 (hschemas branches ih)⟩
  | object fields ih =>
    exact List.forall_mem_cons.2 ⟨.string _, List.forall_mem_singleton.2 (hschemas fields ih)⟩
  | array item ih =>
    exact List.forall_mem_cons.2 ⟨.string _, List.forall_mem_singleton.2 (keyed_of_kind ih)⟩
  | record item ih =>
    exact List.forall_mem_cons.2 ⟨.string _, List.forall_mem_singleton.2 (keyed_of_kind ih)⟩

/-- What a schema is written as is read back, in whatever order the entries of its objects stand,
and in no order is it what another schema is written as. -/
theorem toValue_lossless (s : Schema) :
    s.toValue.Keyed ∧ ofValue? s.toValue = some s ∧
    (∀ v, s.toValue.Same v → ofValue? v = some s) ∧
    ∀ t : Schema, s.toValue.Same t.toValue → s = t := by
  have hkeyed := s.keyed_toValue
  have hread := s.ofValue?_toValue
  have hsame : ∀ v, s.toValue.Same v → ofValue? v = some s := by
    intro v hv
    obtain ⟨-, halike⟩ := hv.alike hkeyed
    rw [← halike.schema, hread]
  refine ⟨hkeyed, hread, hsame, fun t ht => ?_⟩
  have hother := hsame t.toValue ht
  rw [t.ofValue?_toValue] at hother
  exact (Option.some.inj hother).symm

/-- An empty description, and under it an array of an optional enum. -/
def tooltipForm : Schema :=
  ⟨"tooltip".toList, false, some [], .record (.anonymous (.array ⟨[], true, none, .enum [[]]⟩))⟩

/-- The entries of the form from the last to the first. -/
def tooltipEntries : Entries Value :=
  (tooltipForm.labelEntries ++ kindEntries tooltipForm.kind).reverse

theorem toValue_lossless_tooltipForm :
    tooltipForm.toValue.Same (.object tooltipEntries) ∧
    tooltipEntries.map (·.1) =
      ["itemType".toList, "type".toList, "description".toList, "name".toList] ∧
    ofValue? (.object tooltipEntries) = some tooltipForm := by
  have hsame : tooltipForm.toValue.Same (.object tooltipEntries) := by
    rw [toValue_eq]
    exact .order (List.reverse_perm _).symm
  obtain ⟨-, -, hread, -⟩ := tooltipForm.toValue_lossless
  exact ⟨hsame, rfl, hread _ hsame⟩

end Schema

end InterfaceForms

import InterfaceForms.Proofs.Conformance
import Mathlib.Data.List.Nodup

/-!
# Positions in a document

A path leads from a document to a value in it and, along the same steps, from the schema of the
document to the schema of that value. Inside a union it goes on in a branch that the value conforms
to.

* `Schema.Governs`: the schema of the value at the end of a path.
* `Schema.Governs.conforms_setAt`: a conforming value can be put at the end of the path.
-/

namespace InterfaceForms

/-- The fields of an object have distinct names. -/
def Kind.Distinct : Kind → Prop
  | .object fields => (fields.map (·.name)).Nodup
  | _ => True

/-- `Governs s v path t`: the value at the end of the path into `v`, a value of the schema `s`, is
one of the schema `t`. -/
inductive Schema.Governs : Schema → Value → List Value.Key → Schema → Prop
  | here {s : Schema} {v : Value} : Governs s v [] s
  | item {s inner t : Schema} {items : List Value} {i : Nat} {x : Value} {path : List Value.Key}
    (hs : s.kind = .array inner) (hx : items[i]? = some x) :
    Governs inner x path t → Governs s (.array items) (.index i :: path) t
  | entry {s inner t : Schema} {entries : Entries Value} {key : Text} {x : Value}
    {path : List Value.Key} (hs : s.kind = .record inner)
    (hx : Entries.get? key entries = some x) :
    Governs inner x path t → Governs s (.object entries) (.name key :: path) t
  | field {s f t : Schema} {fields : List Schema} {entries : Entries Value} {x : Value}
    {path : List Value.Key} (hs : s.kind = .object fields) (hf : f ∈ fields)
    (hx : Entries.get? f.name entries = some x) :
    Governs f x path t → Governs s (.object entries) (.name f.name :: path) t
  | branch {s b t : Schema} {branches : List Schema} {v : Value} {path : List Value.Key}
    (hs : s.kind = .union branches) (hb : b ∈ branches) (hv : b.Conforms v) :
    Governs b v path t → Governs s v path t

theorem Kind.conforms_insert_record {inner : Schema} {entries : Entries Value} {key : Text}
    {new : Value} (h : (record inner).Conforms (.object entries)) (hnew : inner.Conforms new) :
    (record inner).Conforms (.object (Entries.insert key new entries)) := by
  rw [conforms_record_iff] at h ⊢
  intro entry hentry
  rcases Entries.mem_of_mem_insert hentry with rfl | hentry
  · exact hnew
  · exact h entry hentry

theorem Kind.conforms_insert_object {fields : List Schema} {f : Schema} {entries : Entries Value}
    {new : Value} (h : (object fields).Conforms (.object entries)) (hf : f ∈ fields)
    (hnew : f.Conforms new) :
    (object fields).Conforms (.object (Entries.insert f.name new entries)) := by
  rw [conforms_object_iff] at h ⊢
  obtain ⟨hreq, hentries⟩ := h
  refine ⟨fun g hg hopt => Entries.mem_keys_insert.2 (.inr (hreq g hg hopt)), ?_⟩
  intro entry hentry
  rcases Entries.mem_of_mem_insert hentry with rfl | hentry
  · exact ⟨f, hf, rfl, hnew⟩
  · exact hentries entry hentry

theorem Kind.conforms_set_array {inner : Schema} {items : List Value} {i : Nat} {new : Value}
    (h : (array inner).Conforms (.array items)) (hnew : inner.Conforms new) :
    (array inner).Conforms (.array (items.set i new)) := by
  rw [conforms_array_iff] at h ⊢
  intro x hx
  rcases List.mem_or_eq_of_mem_set hx with hx | rfl
  · exact h x hx
  · exact hnew

/-- Where names are distinct, the value of a key conforms to the one field of that name. -/
theorem Kind.conforms_of_get? {fields : List Schema} {f : Schema} {entries : Entries Value}
    {x : Value} (hnames : (object fields).Distinct)
    (h : (object fields).Conforms (.object entries)) (hf : f ∈ fields)
    (hx : Entries.get? f.name entries = some x) : f.Conforms x := by
  obtain ⟨g, hg, hname, hconf⟩ :=
    (conforms_object_iff.1 h).2 (f.name, x) (Entries.get?_eq_some_mem hx)
  obtain rfl := List.inj_on_of_nodup_map hnames hg hf hname
  exact hconf

namespace Schema.Governs

variable {s t : Schema} {v : Value} {path : List Value.Key}

theorem inside (h : Governs s v path t) : Kind.Inside t.kind s.kind := by
  induction h with
  | here => exact .self
  | item hs _ _ ih => exact hs ▸ .item ih
  | entry hs _ _ ih => exact hs ▸ .value ih
  | field hs hf _ _ ih => exact hs ▸ .field hf ih
  | branch hs hb _ _ ih => exact hs ▸ .branch hb ih

/-- The path leads to a value that conforms to the schema there. -/
theorem conforms_at? (h : Governs s v path t) (hnames : s.kind.Everywhere Kind.Distinct)
    (hv : s.Conforms v) : ∃ x, v.at? path = some x ∧ t.Conforms x := by
  induction h with
  | here => exact ⟨_, rfl, hv⟩
  | @item s inner t items i x path hs hx _ ih =>
    rw [Schema.conforms_iff, hs, Kind.conforms_array_iff] at hv
    obtain ⟨y, hy, hconf⟩ := ih (fun u hu => hnames u (hs ▸ .item hu))
      (hv x (List.mem_of_getElem? hx))
    exact ⟨y, by simp [Value.at?, Value.child?, hx, hy], hconf⟩
  | @entry s inner t entries key x path hs hx _ ih =>
    rw [Schema.conforms_iff, hs, Kind.conforms_record_iff] at hv
    obtain ⟨y, hy, hconf⟩ := ih (fun u hu => hnames u (hs ▸ .value hu))
      (hv (key, x) (Entries.get?_eq_some_mem hx))
    exact ⟨y, by simp [Value.at?, Value.child?, hx, hy], hconf⟩
  | @field s f t fields entries x path hs hf hx _ ih =>
    rw [Schema.conforms_iff, hs] at hv
    have hconf := Kind.conforms_of_get? (hs ▸ hnames _ .self) hv hf hx
    obtain ⟨y, hy, hconf⟩ := ih (fun u hu => hnames u (hs ▸ .field hf hu)) hconf
    exact ⟨y, by simp [Value.at?, Value.child?, hx, hy], hconf⟩
  | branch hs hb hconf _ ih => exact ih (fun u hu => hnames u (hs ▸ .branch hb hu)) hconf

/-- A document still conforms after a conforming value was put in the place of another. -/
theorem conforms_setAt (h : Governs s v path t) (hnames : s.kind.Everywhere Kind.Distinct)
    (hv : s.Conforms v) {new : Value} (hnew : t.Conforms new) :
    s.Conforms (Value.setAt new path v) := by
  induction h with
  | here => exact hnew
  | @item s inner t items i x path hs hx _ ih =>
    rw [Schema.conforms_iff, hs] at hv ⊢
    have hxv := Kind.conforms_array_iff.1 hv x (List.mem_of_getElem? hx)
    have hset := ih (fun u hu => hnames u (hs ▸ .item hu)) hxv hnew
    simp only [Value.setAt, Value.child?, hx, Value.setChild]
    exact Kind.conforms_set_array hv hset
  | @entry s inner t entries key x path hs hx _ ih =>
    rw [Schema.conforms_iff, hs] at hv ⊢
    have hxv := Kind.conforms_record_iff.1 hv (key, x) (Entries.get?_eq_some_mem hx)
    have hset := ih (fun u hu => hnames u (hs ▸ .value hu)) hxv hnew
    simp only [Value.setAt, Value.child?, hx, Value.setChild]
    exact Kind.conforms_insert_record hv hset
  | @field s f t fields entries x path hs hf hx _ ih =>
    rw [Schema.conforms_iff, hs] at hv ⊢
    have hxv := Kind.conforms_of_get? (hs ▸ hnames _ .self) hv hf hx
    have hset := ih (fun u hu => hnames u (hs ▸ .field hf hu)) hxv hnew
    simp only [Value.setAt, Value.child?, hx, Value.setChild]
    exact Kind.conforms_insert_object hv hf hset
  | branch hs hb hconf _ ih =>
    rw [Schema.conforms_iff, hs, Kind.conforms_union_iff]
    exact .inr ⟨_, hb, ih (fun u hu => hnames u (hs ▸ .branch hb hu)) hconf hnew⟩

end Schema.Governs

end InterfaceForms

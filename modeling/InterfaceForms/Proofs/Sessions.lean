import InterfaceForms.Proofs.Positions
import InterfaceForms.Session
import InterfaceForms.Compile

/-!
# Sessions on conforming documents

An edit that is made where its schema belongs keeps the value there conforming, and with it the
document. So a document that starts as the default of a compiled form conforms to the form after
every session, whether its steps succeed or fail.

* `Action.Fits`: the action belongs to a value of the schema.
* `Session.conforms_run`: a session of fitting steps keeps a conforming document conforming.
* `Session.conforms_of_compileText`: a session on the default document of a form.
-/

namespace InterfaceForms

/-! ## Edits of a value -/

namespace Edit

variable {inner : Schema} {v v' : Value}

theorem conforms_push {i : Nat} (hinner : inner.kind.Everywhere Kind.Inhabited)
    (hv : (Kind.array inner).Conforms v) (h : push inner v = .ok (i, v')) :
    (Kind.array inner).Conforms v' := by
  obtain ⟨items, rfl⟩ := Kind.items_of_conforms_array hv
  cases h
  rw [Kind.conforms_array_iff] at hv ⊢
  intro x hx
  rcases List.mem_append.1 hx with hx | hx
  · exact hv x hx
  · obtain rfl := List.mem_singleton.1 hx
    exact Schema.default_conforms hinner

theorem conforms_remove {i : Nat} {removed : Value} (hv : (Kind.array inner).Conforms v)
    (h : remove i v = .ok (removed, v')) : (Kind.array inner).Conforms v' := by
  obtain ⟨items, rfl⟩ := Kind.items_of_conforms_array hv
  simp only [remove, Edit.items, bind, Except.bind] at h
  split at h
  · cases h
    rw [Kind.conforms_array_iff] at hv ⊢
    intro x hx
    exact hv x (List.mem_of_mem_eraseIdx hx)
  · cases h

theorem conforms_addEntry {key : Text} (hinner : inner.kind.Everywhere Kind.Inhabited)
    (hv : (Kind.record inner).Conforms v) (h : addEntry inner v = .ok (key, v')) :
    (Kind.record inner).Conforms v' := by
  obtain ⟨entries, rfl⟩ := Kind.entries_of_conforms_record hv
  cases h
  rw [Kind.conforms_record_iff] at hv ⊢
  intro entry hentry
  rcases List.mem_append.1 hentry with hentry | hentry
  · exact hv entry hentry
  · obtain rfl := List.mem_singleton.1 hentry
    exact Schema.default_conforms hinner

theorem conforms_rename {old new : Text} {u : Unit} (hv : (Kind.record inner).Conforms v)
    (h : rename old new v = .ok (u, v')) : (Kind.record inner).Conforms v' := by
  obtain ⟨entries, rfl⟩ := Kind.entries_of_conforms_record hv
  simp only [rename, Edit.entries, bind, Except.bind] at h
  split at h
  · cases h
  · split at h
    · cases h
    · cases h
      rw [Kind.conforms_record_iff] at hv ⊢
      intro entry hentry
      obtain ⟨entry', hentry', heq⟩ := Entries.mem_of_mem_rename hentry
      exact heq ▸ hv entry' hentry'

theorem conforms_removeEntry {key : Text} {removed : Value}
    (hv : (Kind.record inner).Conforms v) (h : removeEntry key v = .ok (removed, v')) :
    (Kind.record inner).Conforms v' := by
  obtain ⟨entries, rfl⟩ := Kind.entries_of_conforms_record hv
  simp only [removeEntry, Edit.entries, bind, Except.bind] at h
  split at h
  · cases h
    rw [Kind.conforms_record_iff] at hv ⊢
    intro entry hentry
    exact hv entry (Entries.mem_of_mem_erase hentry)
  · cases h

theorem mem_of_mem_insertField {fields : List Schema} {field : Text} {value : Value}
    {entries : Entries Value} {entry : Text × Value}
    (h : entry ∈ insertField fields field value entries) :
    entry = (field, value) ∨ entry ∈ entries := by
  rcases List.mem_append.1 h with h | h
  · obtain ⟨f, _, hf⟩ := List.mem_filterMap.1 (Entries.mem_of_mem_ofList h)
    split at hf
    · rename_i hname
      cases hf
      exact .inl (by rw [hname])
    · obtain ⟨x, hx, rfl⟩ := Option.map_eq_some_iff.1 hf
      exact .inr (Entries.get?_eq_some_mem hx)
  · exact .inr (List.mem_filter.1 h).1

theorem mem_keys_insertField {fields : List Schema} {field : Text} {value : Value}
    {entries : Entries Value} {f : Schema} (hf : f ∈ fields)
    (h : f.name = field ∨ f.name ∈ Entries.keys entries) :
    f.name ∈ Entries.keys (insertField fields field value entries) := by
  have hknown : ∃ x, (f.name, x) ∈ fields.filterMap fun f =>
      if f.name = field then some (f.name, value)
      else (Entries.get? f.name entries).map fun v => (f.name, v) := by
    by_cases hname : f.name = field
    · exact ⟨value, List.mem_filterMap.2 ⟨f, hf, by rw [if_pos hname]⟩⟩
    · have hkey : f.name ∈ Entries.keys entries := h.resolve_left hname
      cases hget : Entries.get? f.name entries with
      | none => exact absurd hkey (Entries.get?_eq_none_iff.1 hget)
      | some x => exact ⟨x, List.mem_filterMap.2 ⟨f, hf, by simp [hname, hget]⟩⟩
  obtain ⟨x, hx⟩ := hknown
  have hkey := Entries.mem_keys_ofList.2 (Entries.mem_keys_of_mem hx)
  rw [Entries.keys] at hkey ⊢
  rw [insertField, List.map_append]
  exact List.mem_append_left _ hkey

/-- A field can be made present, and absent where every field of its name is optional. -/
theorem conforms_setOptional {s : Schema} {fields : List Schema} {field : Text} {present : Bool}
    {u : Unit} (hs : s.kind = .object fields) (hinner : s.kind.Everywhere Kind.Inhabited)
    (hopt : present = true ∨ ∀ f ∈ fields, f.name = field → f.optional = true)
    (hv : s.Conforms v) (h : setOptional s field present v = .ok (u, v')) : s.Conforms v' := by
  rw [Schema.conforms_iff, hs] at hv ⊢
  obtain ⟨entries, rfl⟩ := Kind.entries_of_conforms_object hv
  have hv' := Kind.conforms_object_iff.1 hv
  obtain ⟨hreq, hentries⟩ := hv'
  simp only [setOptional, Schema.fields?, hs, Edit.entries, bind, Except.bind] at h
  cases htarget : fields.find? (·.name = field) with
  | none =>
    rw [htarget] at h
    cases h
  | some target =>
    rw [htarget] at h
    have htmem := List.mem_of_find?_eq_some htarget
    have htname : target.name = field := by simpa using List.find?_some htarget
    cases present with
    | false =>
      cases h
      refine Kind.conforms_object_iff.2 ⟨?_, ?_⟩
      · intro f hf hfopt
        refine Entries.mem_keys_erase (hreq f hf hfopt) ?_
        intro hname
        have := hopt.resolve_left (by decide) f hf hname
        simp [this] at hfopt
      · intro entry hentry
        exact hentries entry (Entries.mem_of_mem_erase hentry)
    | true =>
      simp only [Bool.not_true, Bool.false_eq_true, if_false] at h
      split at h
      · cases h
        exact hv
      · cases h
        refine Kind.conforms_object_iff.2 ⟨?_, ?_⟩
        · intro f hf hfopt
          exact mem_keys_insertField hf (.inr (hreq f hf hfopt))
        · intro entry hentry
          rcases mem_of_mem_insertField hentry with rfl | hentry
          · refine ⟨target, htmem, htname, Schema.default_conforms ?_⟩
            intro k hk
            exact hinner k (hs ▸ .field htmem hk)
          · exact hentries entry hentry

end Edit

/-! ## The schema of a document -/

namespace Schema

/-- A nameless single root describes the document; other roots are the fields of an object. -/
def ofDocument (roots : List Schema) : Schema :=
  match roots, isDirectRoot roots with
  | [root], true => root
  | _, _ => .anonymous (.object roots)

theorem default_ofDocument (roots : List Schema) :
    (ofDocument roots).default = defaultDocument roots := by
  rcases roots with _ | ⟨root, _ | ⟨second, rest⟩⟩
  · exact default_eq _
  · cases hdirect : isDirectRoot [root] with
    | true => simp only [ofDocument, defaultDocument, hdirect]
    | false =>
      simp only [ofDocument, defaultDocument, hdirect]
      exact default_eq _
  · exact default_eq _

theorem inside_ofDocument (roots : List Schema) :
    Kind.Inside (ofDocument roots).kind (.object roots) := by
  unfold ofDocument
  split
  · exact .field List.mem_cons_self .self
  · exact .self

end Schema

/-! ## Actions, steps and sessions -/

variable {roots : List Schema}

/-- The action belongs to a value of the schema `s`. Where it names a schema, that is the schema of
what it makes; an absent field is optional, and the branch of a union can be started. -/
def Action.Fits (roots : List Schema) (s : Schema) : Action → Prop
  | .push item => ∃ inner, s.kind = .array inner ∧ item.find? roots = some inner
  | .remove _ => ∃ inner, s.kind = .array inner
  | .addEntry item => ∃ inner, s.kind = .record inner ∧ item.find? roots = some inner
  | .rename _ _ => ∃ inner, s.kind = .record inner
  | .removeEntry _ => ∃ inner, s.kind = .record inner
  | .setOptional object field present => object.find? roots = some s ∧
    ∃ fields, s.kind = .object fields ∧
      (present = true ∨ ∀ f ∈ fields, f.name = field → f.optional = true)
  | .switch branch => ∃ branches, s.kind = .union branches ∧
    ∃ b ∈ branches, branch.find? roots = some b ∧ b.kind.Restarts
  | .active _ => True
  | .setDefault schema => schema.find? roots = some s
  | .set value => s.Conforms value

/-- The step fails, or it is made at a place of the document whose schema it fits. -/
def Step.Fits (roots : List Schema) (document : Value) (step : Step) : Prop :=
  (∃ e, step.run roots document = .error e) ∨
    ∃ s, Schema.Governs (.ofDocument roots) document step.path s ∧ step.action.Fits roots s

/-- Every step fits the document that it is made on. -/
def Session.Fits (roots : List Schema) (document : Value) : List Step → Prop
  | [] => True
  | step :: steps =>
    step.Fits roots document ∧ Fits roots (step.after roots document) steps

theorem Action.schema_ok {r : SchemaRef} {s : Schema} (h : r.find? roots = some s) :
    run.schema roots r = .ok s := by
  rw [run.schema, h]

theorem Action.edit_ok {α : Type} {e : Except EditError (α × Value)} {f : α → Answer}
    {answer : Answer} {v : Value}
    (h : (run.edit e >>= fun r => pure (f r.1, r.2)) = .ok (answer, v)) : ∃ a, e = .ok (a, v) := by
  cases e with
  | error cause => cases h
  | ok r =>
    cases h
    exact ⟨r.1, rfl⟩

/-- A fitting action takes a conforming value to a conforming value. -/
theorem Action.conforms_run {s : Schema} {v v' : Value} {action : Action} {answer : Answer}
    (hs : s.kind.Everywhere Kind.Inhabited) (hfits : action.Fits roots s) (hv : s.Conforms v)
    (h : action.run roots v = .ok (answer, v')) : s.Conforms v' := by
  cases action with
  | push item =>
    obtain ⟨inner, hkind, hitem⟩ := hfits
    rw [Schema.conforms_iff, hkind] at hv ⊢
    simp only [run, schema_ok hitem] at h
    obtain ⟨i, hedit⟩ := edit_ok (f := .index) h
    exact Edit.conforms_push (fun u hu => hs u (hkind ▸ .item hu)) hv hedit
  | remove index =>
    obtain ⟨inner, hkind⟩ := hfits
    rw [Schema.conforms_iff, hkind] at hv ⊢
    obtain ⟨removed, hedit⟩ := edit_ok (f := .value) h
    exact Edit.conforms_remove hv hedit
  | addEntry item =>
    obtain ⟨inner, hkind, hitem⟩ := hfits
    rw [Schema.conforms_iff, hkind] at hv ⊢
    simp only [run, schema_ok hitem] at h
    obtain ⟨key, hedit⟩ := edit_ok (f := .key) h
    exact Edit.conforms_addEntry (fun u hu => hs u (hkind ▸ .value hu)) hv hedit
  | rename old new =>
    obtain ⟨inner, hkind⟩ := hfits
    rw [Schema.conforms_iff, hkind] at hv ⊢
    obtain ⟨_, hedit⟩ := edit_ok (f := fun _ => .none) h
    exact Edit.conforms_rename hv hedit
  | removeEntry key =>
    obtain ⟨inner, hkind⟩ := hfits
    rw [Schema.conforms_iff, hkind] at hv ⊢
    obtain ⟨removed, hedit⟩ := edit_ok (f := .value) h
    exact Edit.conforms_removeEntry hv hedit
  | setOptional object field present =>
    obtain ⟨hobject, fields, hkind, hopt⟩ := hfits
    simp only [run, schema_ok hobject] at h
    obtain ⟨_, hedit⟩ := edit_ok (f := fun _ => .none) h
    exact Edit.conforms_setOptional hkind hs hopt hv hedit
  | switch branch =>
    obtain ⟨branches, hkind, b, hb, hbranch, hrestarts⟩ := hfits
    simp only [run, schema_ok hbranch] at h
    cases h
    rw [Schema.conforms_iff, hkind, Kind.conforms_union_iff]
    refine .inr ⟨b, hb, (Schema.switchTo_conforms_iff ?_).2 hrestarts⟩
    exact hs _ (hkind ▸ .branch hb .self)
  | active union =>
    simp only [run, bind, Except.bind] at h
    split at h
    · cases h
    · split at h
      · cases h
        exact hv
      · cases h
  | setDefault schema =>
    simp only [run, schema_ok hfits] at h
    cases h
    exact Schema.default_conforms hs
  | set value =>
    cases h
    exact hfits

/-- A document conforms to the schema of its roots after a fitting step if it did before. -/
theorem Step.conforms_after {document : Value} {step : Step}
    (hinhabited : (Kind.object roots).Everywhere Kind.Inhabited)
    (hnames : (Kind.object roots).Everywhere Kind.Distinct)
    (hdoc : (Schema.ofDocument roots).Conforms document) (hfits : step.Fits roots document) :
    (Schema.ofDocument roots).Conforms (step.after roots document) := by
  have hroots := Schema.inside_ofDocument roots
  cases hrun : step.run roots document with
  | error e =>
    rw [after, hrun]
    exact hdoc
  | ok r =>
    rcases hfits with ⟨e, he⟩ | ⟨s, hgov, hfits⟩
    · rw [hrun] at he
      cases he
    · have hnames' := fun u hu => hnames u (Kind.Inside.trans hu hroots)
      obtain ⟨x, hx, hconf⟩ := hgov.conforms_at? hnames' hdoc
      simp only [run, hx] at hrun
      cases haction : step.action.run roots x with
      | error e =>
        rw [haction] at hrun
        cases hrun
      | ok r' =>
        rw [haction] at hrun
        cases hrun
        have hs : s.kind.Everywhere Kind.Inhabited := fun u hu =>
          hinhabited u (.trans (.trans hu hgov.inside) hroots)
        have hnew := Action.conforms_run hs hfits hconf haction
        simp only [after, run, hx, haction]
        exact hgov.conforms_setAt hnames' hdoc hnew

/-- Every document of a session of fitting steps conforms if the first one does. -/
theorem Session.conforms_run {document : Value} {steps : List Step}
    (hinhabited : (Kind.object roots).Everywhere Kind.Inhabited)
    (hnames : (Kind.object roots).Everywhere Kind.Distinct)
    (hdoc : (Schema.ofDocument roots).Conforms document) (hfits : Fits roots document steps) :
    ∀ row ∈ run roots document steps, (Schema.ofDocument roots).Conforms row.2 := by
  induction steps generalizing document with
  | nil => nofun
  | cons step steps ih =>
    obtain ⟨hstep, hsteps⟩ := hfits
    have hafter := step.conforms_after hinhabited hnames hdoc hstep
    intro row hrow
    rcases List.mem_cons.1 hrow with rfl | hrow
    · exact hafter
    · exact ih hafter hsteps row hrow

/-! ## Sessions on compiled forms -/

theorem Kind.built_inhabited : Built Inhabited where
  string := nofun
  number := nofun
  boolean := nofun
  enum values hvalues := by
    rintro ⟨⟩
    exact hvalues rfl
  union _ _ := nofun
  object _ := nofun
  array _ := nofun
  record _ := nofun

namespace Session

/-- The default document of a form conforms to it, and so does every document of a session of
fitting steps that starts there. -/
theorem conforms_of_compileText {options : Options} {root text : Text}
    (h : (Declaration.compileText options root text).result = .ok roots)
    (hnames : (Kind.object roots).Everywhere Kind.Distinct) :
    (Schema.ofDocument roots).Conforms (Schema.defaultDocument roots) ∧
      ∀ steps, Fits roots (Schema.defaultDocument roots) steps →
        ∀ row ∈ run roots (Schema.defaultDocument roots) steps,
          (Schema.ofDocument roots).Conforms row.2 := by
  have hinhabited : (Kind.object roots).Everywhere Kind.Inhabited :=
    Kind.built_inhabited.everywhere_object
      (Declaration.everywhere_compileText Kind.built_inhabited h)
  have hdefault : (Schema.ofDocument roots).Conforms (Schema.defaultDocument roots) := by
    rw [← Schema.default_ofDocument]
    refine Schema.default_conforms ?_
    intro u hu
    exact hinhabited u (hu.trans (Schema.inside_ofDocument roots))
  exact ⟨hdefault, fun steps hfits => conforms_run hinhabited hnames hdefault hfits⟩

/-- A list of texts and an optional number. -/
def listForm : Text := "interface R \x7b\na: string[]\nb?: number\n\x7d".toList

def listRoots : List Schema :=
  [⟨"a".toList, false, none, .array (.anonymous .string)⟩, ⟨"b".toList, true, none, .number⟩]

/-- Adds an item, makes the number present, and fails to remove an item that is not there. -/
def listSteps : List Step :=
  [⟨[.name "a".toList], .push (.path [.field "a".toList, .item])⟩,
    ⟨[], .setOptional (.path []) "b".toList true⟩, ⟨[.name "a".toList], .remove 4⟩]

theorem listRoots_distinct : (Kind.object listRoots).Everywhere Kind.Distinct := by
  intro u hu
  cases hu with
  | self =>
    show ["a".toList, "b".toList].Nodup
    decide
  | field hf hin =>
    rcases List.mem_cons.1 hf with rfl | hf
    · cases hin with
      | self => trivial
      | item hin =>
        cases hin
        trivial
    · obtain rfl := List.mem_singleton.1 hf
      cases hin
      trivial

set_option maxRecDepth 4000 in
theorem conforms_of_listForm :
    (Declaration.compileText {} "R".toList listForm).result = .ok listRoots ∧
    (Kind.object listRoots).Everywhere Kind.Distinct ∧
    Fits listRoots (Schema.defaultDocument listRoots) listSteps ∧
    (Schema.ofDocument listRoots).Conforms (Schema.defaultDocument listRoots) ∧
    ∀ row ∈ run listRoots (Schema.defaultDocument listRoots) listSteps,
      (Schema.ofDocument listRoots).Conforms row.2 := by
  have hcompile : (Declaration.compileText {} "R".toList listForm).result = .ok listRoots := by
    with_unfolding_all rfl
  have hfits : Fits listRoots (Schema.defaultDocument listRoots) listSteps := by
    have hlist : ∀ entries x, Entries.get? "a".toList entries = some x →
        Schema.Governs (.ofDocument listRoots) (.object entries) [.name "a".toList]
          ⟨"a".toList, false, none, .array (.anonymous .string)⟩ := by
      intro entries x hx
      have hkind : (Schema.ofDocument listRoots).kind = .object listRoots := rfl
      exact .field hkind List.mem_cons_self hx .here
    refine ⟨.inr ⟨_, hlist _ (.array []) ?_, .anonymous .string, rfl, ?_⟩,
      .inr ⟨_, .here, ?_, listRoots, rfl, .inl rfl⟩,
      .inl ⟨.edit (.indexOutOfBounds 4 1), ?_⟩, trivial⟩
    all_goals with_unfolding_all rfl
  have h := conforms_of_compileText hcompile listRoots_distinct
  exact ⟨hcompile, listRoots_distinct, hfits, h.1, h.2 _ hfits⟩

end Session

end InterfaceForms

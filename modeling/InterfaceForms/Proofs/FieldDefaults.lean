import InterfaceForms.Proofs.DirectRoots
import InterfaceForms.Proofs.InsertedFields
import InterfaceForms.Proofs.Sessions

/-!
# Defaults of fields

The default of an object is filled from all its required fields, and a later field of a name
replaces the value of an earlier one. Looked up by its name, a field is the first one, and so it is
when it is made present. The two differ where a block has members of one name, since its members
become fields one by one; they agree on every name that a block has once.

* `Schema.get?_requiredDefaults`: a key has the default of the last required field.
* `Schema.get?_eq_initial?_iff`: where that is the default of the field found by its name.
* `Declaration.default_compileText`: the statement for the objects of a form.
-/

namespace InterfaceForms

/-! ## The default of a list of fields -/

namespace Schema

variable {fields : List Schema} {key : Text} {target last : Schema}

/-- What the field gives to the default of its object: nothing if it may be left out. -/
def initial? (f : Schema) : Option Value := if f.optional then none else some f.default

/-- The last of the required fields with the name. -/
def lastRequired? (fields : List Schema) (key : Text) : Option Schema :=
  fields.reverse.find? fun f => f.name = key && !f.optional

theorem lastRequired?_eq_some (h : lastRequired? fields key = some last) :
    last ∈ fields ∧ last.name = key ∧ last.optional = false := by
  have hmem : last ∈ fields := List.mem_reverse.1 (List.mem_of_find?_eq_some h)
  have hlast := List.find?_some h
  simp only [Bool.and_eq_true, decide_eq_true_eq, Bool.not_eq_true'] at hlast
  exact ⟨hmem, hlast⟩

/-- A key of the default has the default of the last required field of its name. -/
theorem get?_requiredDefaults (fields : List Schema) (key : Text) :
    Entries.get? key (Entries.ofList (requiredDefaults fields)) =
      (lastRequired? fields key).map default := by
  rw [Entries.get?_ofList, requiredDefaults_eq, ← List.map_reverse, ← List.filter_reverse,
    Entries.get?, List.find?_map, List.find?_filter, Option.map_map, lastRequired?]
  simp [Function.comp_def, Bool.and_comm, Bool.decide_and]

/-- The default agrees with the lookup by name unless a later field of the name is required and
the first one is optional or has another default. -/
theorem get?_eq_initial?_iff (htarget : fields.find? (·.name = key) = some target) :
    Entries.get? key (Entries.ofList (requiredDefaults fields)) = target.initial? ↔
      ∀ last, lastRequired? fields key = some last →
        target.optional = false ∧ last.default = target.default := by
  rw [get?_requiredDefaults, initial?]
  cases hlast : lastRequired? fields key with
  | none =>
    have hoptional : target.optional = true := by
      have hmem : target ∈ fields.reverse :=
        List.mem_reverse.2 (List.mem_of_find?_eq_some htarget)
      have hname : target.name = key := by simpa using List.find?_some htarget
      simpa [hname] using List.find?_eq_none.1 hlast target hmem
    rw [if_pos hoptional]
    exact iff_of_true rfl nofun
  | some last => cases hoptional : target.optional <;> simp

/-- The default agrees with the lookup of a name that is not repeated. -/
theorem get?_eq_initial?_of_count (htarget : fields.find? (·.name = key) = some target)
    (hcount : (fields.map (·.name)).count key ≤ 1) :
    Entries.get? key (Entries.ofList (requiredDefaults fields)) = target.initial? := by
  rw [get?_eq_initial?_iff htarget]
  intro last hlast
  obtain ⟨hlast, hname, hrequired⟩ := lastRequired?_eq_some hlast
  obtain ⟨-, before, after, rfl, hbefore⟩ := List.find?_eq_some_iff_append.1 htarget
  have hself : last = target := by
    rcases List.mem_append.1 hlast with hlast | hlast
    · exact absurd hname (by simpa using hbefore last hlast)
    · rcases List.mem_cons.1 hlast with hlast | hlast
      · exact hlast
      · -- the name of `target` comes again behind it
        have hpos : 0 < (after.map (·.name)).count key :=
          List.count_pos_iff.2 (hname ▸ List.mem_map_of_mem hlast)
        have hkey : target.name = key := by simpa using List.find?_some htarget
        simp only [List.map_append, List.map_cons, List.count_append, hkey,
          List.count_cons_self] at hcount
        omega
  exact ⟨hself ▸ hrequired, by rw [hself]⟩

end Schema

/-! ## The objects of a form -/

/-- A type has an object inside it only where a name in it stands for a kind with that object. -/
theorem TypeTree.exists_resolve_of_inside {resolve : Position → Text → Logged Kind}
    {fields : List Schema} {t : TypeTree} {p : Position} {k : Kind}
    (h : (t.compile resolve p).result = .ok k) (hin : Kind.Inside (.object fields) k) :
    ∃ q name k', (resolve q name).result = .ok k' ∧ Kind.Inside (.object fields) k' := by
  induction t generalizing p k with
  | literals values =>
    cases h
    cases hin
  | union branches ih =>
    simp only [compile] at h
    obtain ⟨kinds, hkinds, rfl⟩ := Logged.bind_pure_ok.1 h
    rw [compileBranches_eq] at hkinds
    cases hin with
    | branch hb hin =>
      obtain ⟨k, hk, rfl⟩ := List.mem_map.1 hb
      obtain ⟨b, hb, hcompile⟩ := Logged.mem_of_mapM_ok hkinds k hk
      exact ih b hb hcompile hin
  | record v ih =>
    simp only [compile] at h
    obtain ⟨k, hk, rfl⟩ := Logged.bind_pure_ok.1 h
    cases hin with
    | value hin => exact ih hk hin
  | array v ih =>
    simp only [compile] at h
    obtain ⟨k, hk, rfl⟩ := Logged.bind_pure_ok.1 h
    cases hin with
    | item hin => exact ih hk hin
  | named name => exact ⟨p, name, k, h, hin⟩
  | malformed cause => cases h

namespace Declaration

variable {declarations : List Declaration} {options : Options} {fields roots : List Schema}
  {d : Declaration} {root t : Text}

/-- The fields have the names of the members of a block, in their order, and are optional where
these are; or there are no fields, as for a name that is not declared. -/
def Lists (declarations : List Declaration) (fields : List Schema) : Prop :=
  fields = [] ∨ ∃ d ∈ declarations, ∃ members, d.body = .block members ∧
    fields.map (fun s => (s.name, s.optional)) = members.map fun m => (m.name, m.optional)

/-- The objects inside a block are the block and those that the names in it stand for. -/
theorem lists_of_members {resolve : Text → Position → Text → Logged Kind}
    (hresolve : ∀ m q name k, (resolve m q name).result = .ok k →
      Kind.Inside (.object fields) k → Lists declarations fields)
    {members : List Member} (hd : d ∈ declarations) (hbody : d.body = .block members)
    {roots : List Schema}
    (h : (members.mapM fun m : Member => m.compile (resolve m.name)).result = .ok roots)
    (hin : Kind.Inside (.object fields) (.object roots)) : Lists declarations fields := by
  cases hin with
  | self => exact .inr ⟨d, hd, members, hbody, names_of_mapM h⟩
  | field hf hin =>
    obtain ⟨m, -, hk⟩ := member_of_field h _ hf
    obtain ⟨q, name, k', hk', hin⟩ := TypeTree.exists_resolve_of_inside hk hin
    exact hresolve m.name q name k' hk' hin

theorem lists_of_resolve {stack : List Text} {member : Text} {position : Position} {name : Text}
    {k : Kind} (h : (resolve declarations options stack member position name).result = .ok k)
    (hin : Kind.Inside (.object fields) k) : Lists declarations fields := by
  refine resolve_ok_ind (motive := fun _ _ k =>
    Kind.Inside (.object fields) k → Lists declarations fields) ?_ ?_ ?_ h hin
  · intro stack position p hin
    unfold Primitive.compile at hin
    split at hin
    · cases hin
    · cases p <;> cases hin
  · intro stack position hin
    unfold Position.fallback at hin
    split at hin
    · cases hin with
      | self => exact .inl rfl
      | field hf _ => cases hf
    · cases hin
  · intro stack member position name d k hfind hstack ih h hin
    rcases hbody : d.body with members | target
    · simp only [expand, hbody] at h
      obtain ⟨roots, hroots, rfl⟩ := Logged.bind_pure_ok.1 h
      exact lists_of_members ih (List.mem_of_find?_eq_some hfind) hbody hroots hin
    · simp only [expand, hbody] at h
      obtain ⟨q, other, k', hk', hin⟩ := TypeTree.exists_resolve_of_inside h hin
      exact ih member q other k' hk' hin

theorem lists_of_compile (hfind : find? declarations root = some d) (hd : d.WellTargeted)
    (h : (compile declarations options root).result = .ok roots)
    (hin : Kind.Inside (.object fields) (Schema.ofDocument roots).kind) :
    Lists declarations fields := by
  have hresolve : ∀ m q other k, (resolve declarations options [root] m q other).result = .ok k →
      Kind.Inside (.object fields) k → Lists declarations fields :=
    fun m q other k hk hin => lists_of_resolve hk hin
  simp only [compile, hfind] at h
  rcases hbody : d.body with members | target
  · rw [hbody] at h
    exact lists_of_members hresolve (List.mem_of_find?_eq_some hfind) hbody h
      (hin.trans (Schema.inside_ofDocument roots))
  · rw [hbody] at h
    obtain ⟨s, hs, rfl⟩ := Logged.bind_pure_ok.1 h
    obtain ⟨k, hk, rfl⟩ := Logged.bind_pure_ok.1 hs
    -- the target of an alias has no name, and is the whole value
    rw [hd target hbody] at hin
    obtain ⟨q, other, k', hk', hin⟩ := TypeTree.exists_resolve_of_inside hk hin
    exact hresolve target.name q other k' hk' hin

/-- The default of a form is the default of the object it describes. Each object in it has the
fields of a block, and at each key it has the default of the last required field of that name. This
agrees with the field that is found by the name, which is the one that can be made present, unless
the name comes again with another default; and it does so for every name that comes once. -/
theorem default_compileText {s : Schema} (h : (compileText options root t).result = .ok roots)
    (hin : Kind.Inside s.kind (Schema.ofDocument roots).kind) (hs : s.kind = .object fields) :
    Schema.defaultDocument roots = (Schema.ofDocument roots).default ∧
    (∃ declarations, (ofText options t).result = .ok declarations ∧ Lists declarations fields) ∧
    ∃ entries, s.default = .object entries ∧ ∀ key,
      Entries.get? key entries = (Schema.lastRequired? fields key).map Schema.default ∧
      ∀ target, s.field? key = some target →
        (Entries.get? key entries = target.initial? ↔
          ∀ last, Schema.lastRequired? fields key = some last →
            target.optional = false ∧ last.default = target.default) ∧
        ((fields.map (·.name)).count key ≤ 1 → Entries.get? key entries = target.initial?) ∧
        ∀ other : Entries Value, (Entries.keys other).Nodup → key ∉ Entries.keys other →
          ∃ new, Edit.setOptional s key true (.object other) = .ok ((), .object new) ∧
            Entries.get? key new = some target.default := by
  have hfields : s.fields? = some fields := by rw [Schema.fields?, hs]
  refine ⟨(Schema.default_ofDocument roots).symm, ?_, ?_⟩
  · obtain ⟨declarations, hdeclarations, h⟩ := Logged.bind_ok.1 h
    refine ⟨declarations, hdeclarations, ?_⟩
    cases hfind : find? declarations root with
    | none =>
      rw [compile_undeclared hfind] at h
      cases h
    | some d =>
      obtain ⟨-, htargeted⟩ := of_ofText hdeclarations (List.mem_of_find?_eq_some hfind)
      exact lists_of_compile hfind htargeted h (hs ▸ hin)
  · refine ⟨Entries.ofList (Schema.requiredDefaults fields), ?_, fun key => ?_⟩
    · rw [Schema.default_eq, hs, Schema.defaultOfKind]
    · refine ⟨Schema.get?_requiredDefaults fields key, fun target htarget => ?_⟩
      have hfind : fields.find? (·.name = key) = some target := by
        simpa [Schema.field?, hfields] using htarget
      refine ⟨Schema.get?_eq_initial?_iff hfind, Schema.get?_eq_initial?_of_count hfind, ?_⟩
      intro other hkeys habsent
      have hmem : key ∈ fields.map (·.name) := Edit.name_mem_of_field? hfields htarget
      refine ⟨_, Edit.setOptional_eq_place hfields htarget, ?_⟩
      rw [Edit.get?_place hmem hkeys, if_pos rfl, if_pos rfl, Entries.get?_eq_none_iff.2 habsent,
        Option.getD_none]

/-- A form in which the name `a` comes twice. -/
def repeatedText : Text :=
  "interface A \x7b\n  a: string;\n  b?: boolean;\n  a: number;\n\x7d\n".toList

def repeatedRoots : List Schema :=
  [⟨"a".toList, false, none, .string⟩, ⟨"b".toList, true, none, .boolean⟩,
    ⟨"a".toList, false, none, .number⟩]

set_option maxRecDepth 4000 in
theorem compileText_repeatedText :
    (compileText {} "A".toList repeatedText).result = .ok repeatedRoots := by
  with_unfolding_all rfl

theorem default_compileText_repeatedText :
    (compileText {} "A".toList repeatedText).result = .ok repeatedRoots ∧
    Kind.Inside (Schema.anonymous (.object repeatedRoots)).kind
      (Schema.ofDocument repeatedRoots).kind ∧
    ∃ entries, (Schema.anonymous (.object repeatedRoots)).default = .object entries ∧
      Entries.get? "a".toList entries =
        (Schema.lastRequired? repeatedRoots "a".toList).map Schema.default ∧
      Entries.get? "b".toList entries = none := by
  obtain ⟨-, -, entries, hdefault, hentries⟩ := default_compileText
    (s := .anonymous (.object repeatedRoots)) compileText_repeatedText .self rfl
  have hb := ((hentries "b".toList).2 _ rfl).2.1 (by decide)
  exact ⟨compileText_repeatedText, .self, entries, hdefault, (hentries "a".toList).1, hb⟩

/-- The field that is found by the name `a` is the string, and the default has a number there. -/
theorem default_repeatedText :
    ∃ roots, (compileText {} "A".toList repeatedText).result = .ok roots ∧
      (Schema.ofDocument roots).field? "a".toList = some ⟨"a".toList, false, none, .string⟩ ∧
      Schema.default ⟨"a".toList, false, none, .string⟩ = .string [] ∧
      Schema.defaultDocument roots = .object [("a".toList, .int 0)] :=
  ⟨repeatedRoots, compileText_repeatedText, rfl, rfl, rfl⟩

end Declaration

end InterfaceForms

import InterfaceForms.Proofs.References

/-!
# Nodes of a schema

The nodes of a schema are its kind and the kinds inside it. What is true of the kinds that the
compiler builds one at a time is true of all nodes of a compiled schema.

* `Kind.Inside`: the nodes of a kind.
* `Declaration.everywhere_compileText`: a fact about each kind that is built from a text holds
  everywhere in what the text compiles to.
-/

namespace InterfaceForms

/-! ## Kinds inside a kind -/

/-- `Inside u k`: the kind `u` is `k` or stands in it, at any depth. -/
inductive Kind.Inside : Kind → Kind → Prop
  | self {k : Kind} : Inside k k
  | branch {u : Kind} {branches : List Schema} {b : Schema} (h : b ∈ branches) :
    Inside u b.kind → Inside u (.union branches)
  | field {u : Kind} {fields : List Schema} {f : Schema} (h : f ∈ fields) :
    Inside u f.kind → Inside u (.object fields)
  | item {u : Kind} {s : Schema} : Inside u s.kind → Inside u (.array s)
  | value {u : Kind} {s : Schema} : Inside u s.kind → Inside u (.record s)

namespace Kind

theorem sizeOf_kind_lt (s : Schema) : sizeOf s.kind < sizeOf s := by
  obtain ⟨_, _, _, kind⟩ := s
  simp only [Schema.mk.sizeOf_spec]
  omega

@[induction_eliminator]
theorem ind {motive : Kind → Prop} (string : motive .string) (number : motive .number)
    (boolean : motive .boolean) (enum : ∀ values, motive (.enum values))
    (union : ∀ branches, (∀ b ∈ branches, motive b.kind) → motive (.union branches))
    (object : ∀ fields, (∀ f ∈ fields, motive f.kind) → motive (.object fields))
    (array : ∀ s, motive s.kind → motive (.array s))
    (record : ∀ s, motive s.kind → motive (.record s)) : ∀ k, motive k
  | .string => string
  | .number => number
  | .boolean => boolean
  | .enum values => enum values
  | .union branches => union branches fun b hb =>
    have := List.sizeOf_lt_of_mem hb
    have := sizeOf_kind_lt b
    ind string number boolean enum union object array record b.kind
  | .object fields => object fields fun f hf =>
    have := List.sizeOf_lt_of_mem hf
    have := sizeOf_kind_lt f
    ind string number boolean enum union object array record f.kind
  | .array s =>
    have := sizeOf_kind_lt s
    array s (ind string number boolean enum union object array record s.kind)
  | .record s =>
    have := sizeOf_kind_lt s
    record s (ind string number boolean enum union object array record s.kind)

theorem Inside.trans {u v w : Kind} (h : Inside u v) (h' : Inside v w) : Inside u w := by
  induction h' with
  | self => exact h
  | branch hb _ ih => exact .branch hb ih
  | field hf _ ih => exact .field hf ih
  | item _ ih => exact .item ih
  | value _ ih => exact .value ih

/-- All nodes of the kind satisfy `P`. -/
def Everywhere (P : Kind → Prop) (k : Kind) : Prop := ∀ u, Inside u k → P u

/-- `P` holds of each kind that the compiler builds, whatever stands inside it. -/
structure Built (P : Kind → Prop) : Prop where
  string : P .string
  number : P .number
  boolean : P .boolean
  enum : ∀ values, values ≠ [] → P (.enum values)
  union : ∀ kinds : List Kind, 2 ≤ kinds.length → P (.union (kinds.map .anonymous))
  object : ∀ fields, P (.object fields)
  array : ∀ k, P (.array (.anonymous k))
  record : ∀ k, P (.record (.anonymous k))

variable {P : Kind → Prop}

theorem Built.everywhere_primitive (h : Built P) (policy : ArrayPrimitivePolicy)
    (position : Position) (p : Primitive) : Everywhere P (p.compile policy position) := by
  unfold Primitive.compile
  split
  · rintro u ⟨⟩
    exact h.string
  · cases p with
    | string =>
      rintro u ⟨⟩
      exact h.string
    | number =>
      rintro u ⟨⟩
      exact h.number
    | boolean =>
      rintro u ⟨⟩
      exact h.boolean

theorem Built.everywhere_object (h : Built P) {fields : List Schema}
    (hfields : ∀ f ∈ fields, Everywhere P f.kind) : Everywhere P (.object fields) := by
  rintro u (_ | _ | ⟨hf, hin⟩)
  · exact h.object fields
  · exact hfields _ hf u hin

theorem Built.everywhere_fallback (h : Built P) (position : Position) :
    Everywhere P position.fallback := by
  unfold Position.fallback
  split
  · exact h.everywhere_object (by simp)
  · rintro u ⟨⟩
    exact h.string

end Kind

/-! ## Types that were read from an expression -/

/-- No list of literals in the type is empty, and every union has two branches or more. -/
structure TypeTree.Proper (t : TypeTree) : Prop where
  literals : ∀ p q values, Part p t q (.literals values) → values ≠ []
  union : ∀ p q branches, Part p t q (.union branches) → 2 ≤ branches.length

theorem TypeTree.Proper.part {t u : TypeTree} (h : t.Proper) {p q : Position}
    (hpart : t.Part p q u) : u.Proper := by
  constructor
  · intro p' q' values hu
    obtain ⟨q'', hu⟩ := hu.reposition q
    exact h.literals p q'' values (hpart.trans hu)
  · intro p' q' branches hu
    obtain ⟨q'', hu⟩ := hu.reposition q
    exact h.union p q'' branches (hpart.trans hu)

theorem Shape.ofSingle_cases {expr : Text} {s : Shape} (h : ofSingle expr = .ok s) :
    (∃ key value, s = .record key value) ∨ (∃ element, s = .array element) ∨
      ∃ name, s = .named name := by
  have arrayOrName : (∃ element, ofArrayOrName expr = .array element) ∨
      ∃ name, ofArrayOrName expr = .named name := by
    unfold ofArrayOrName
    split
    · exact .inl ⟨_, rfl⟩
    · exact .inr ⟨_, rfl⟩
  unfold ofSingle at h
  split at h
  · cases h
    exact .inr arrayOrName
  · split at h
    · cases h
    · split at h
      · split at h
        · rename_i hargs
          cases h
          unfold ofRecordArguments? at hargs
          split at hargs
          · split at hargs
            · cases hargs
            · cases hargs
              exact .inl ⟨_, _, rfl⟩
          · cases hargs
        · cases h
      · cases h
        exact .inr arrayOrName

theorem Shape.ofAlternatives_enum {exprs values : List Text}
    (h : ofAlternatives exprs = .ok (.enum values)) : values ≠ [] := by
  match exprs with
  | [] => cases h
  | [expr] =>
    simp only [ofAlternatives] at h
    split at h
    · cases h
      simp
    · rcases ofSingle_cases h with ⟨_, _, h⟩ | ⟨_, h⟩ | ⟨_, h⟩ <;> cases h
  | first :: second :: rest =>
    simp only [ofAlternatives] at h
    split at h
    · rename_i read hread
      cases h
      rw [List.mapM_cons] at hread
      obtain ⟨value, _, hread⟩ := Option.bind_eq_some_iff.1 hread
      obtain ⟨values, _, hread⟩ := Option.bind_eq_some_iff.1 hread
      cases hread
      simp
    · cases h

theorem Shape.ofAlternatives_union {exprs : List Text} {branches : List Branch}
    (h : ofAlternatives exprs = .ok (.union branches)) : 2 ≤ branches.length := by
  match exprs with
  | [] => cases h
  | [expr] =>
    simp only [ofAlternatives] at h
    split at h
    · cases h
    · rcases ofSingle_cases h with ⟨_, _, h⟩ | ⟨_, h⟩ | ⟨_, h⟩ <;> cases h
  | first :: second :: rest =>
    simp only [ofAlternatives] at h
    split at h
    · cases h
    · cases h
      simp

theorem TypeTree.proper_ofExpr (expr : Text) : (ofExpr expr).Proper := by
  induction expr using Shape.ofExpr_ind with
  | malformed expr cause hshape =>
    rw [ofExpr_eq, hshape]
    exact ⟨nofun, nofun⟩
  | shape expr s hshape ih =>
    rw [ofExpr_eq, hshape]
    constructor
    · intro p q values h
      rcases Shape.part_tree h with ⟨htree, _⟩ | ⟨_, htree⟩ | ⟨_, htree⟩ | ⟨e, he, p', hpart⟩
      · cases s <;> cases htree
        exact Shape.ofAlternatives_enum hshape
      · cases htree
      · cases htree
        simp
      · exact (ih e he).literals p' q values hpart
    · intro p q branches h
      rcases Shape.part_tree h with ⟨htree, _⟩ | ⟨_, htree⟩ | ⟨_, htree⟩ | ⟨e, he, p', hpart⟩
      · cases s <;> cases htree
        rw [List.length_map]
        exact Shape.ofAlternatives_union hshape
      · cases htree
      · cases htree
      · exact (ih e he).union p' q branches hpart

/-! ## The types in a text -/

/-- The shape of a member is that of an expression. -/
theorem Member.shape_of_ofLine {line : Text} {m : Member} (h : ofLine line = .ok (some m)) :
    ∃ expr, Shape.ofExpr expr = .ok m.shape := by
  simp only [ofLine, ofCode] at h
  split at h
  · cases h
  · split at h
    · cases h
    · rename_i right _ _
      cases hshape : Shape.ofExpr (rawTypeOf right) with
      | error e =>
        rw [hshape] at h
        cases h
      | ok shape =>
        rw [hshape] at h
        cases h
        exact ⟨_, hshape⟩

theorem MemberLine.shape_of_member? {line : MemberLine} {m : Member}
    (h : line.member? = .ok (some m)) : ∃ expr, Shape.ofExpr expr = .ok m.shape := by
  unfold member? at h
  cases hline : Member.ofLine line.text with
  | error e =>
    rw [hline] at h
    cases h
  | ok found =>
    rw [hline] at h
    cases found with
    | none => cases h
    | some m' =>
      cases h
      obtain ⟨expr, hshape⟩ := Member.shape_of_ofLine hline
      exact ⟨expr, hshape⟩

theorem Declaration.types_of_ofSource {source : Source} {d : Declaration}
    (h : ofSource source = .ok d) : ∀ t ∈ d.types, ∃ expr, t = .ofExpr expr := by
  intro t ht
  rcases ofSource_cases h with ⟨lines, members, -, hlines, rfl⟩ | ⟨expr, shape, -, hshape, rfl⟩
  · obtain ⟨m, hm, rfl⟩ := List.mem_map.1 ht
    obtain ⟨found, hfound, rfl⟩ := List.mem_filterMap.1 hm
    obtain ⟨line, _, hline⟩ := Except.mem_of_mapM_ok hlines _ hfound
    obtain ⟨expr, hshape⟩ := MemberLine.shape_of_member? hline
    exact ⟨expr, by rw [TypeTree.ofExpr_eq, hshape]⟩
  · obtain rfl := List.mem_singleton.1 ht
    exact ⟨expr, by rw [TypeTree.ofExpr_eq, hshape]⟩

theorem Declaration.types_of_ofText {options : Options} {t : Text} {ds : List Declaration}
    (h : (ofText options t).result = .ok ds) :
    ∀ d ∈ ds, ∀ type ∈ d.types, ∃ expr, type = .ofExpr expr := by
  obtain ⟨sources, _, hsources⟩ := Logged.bind_ok.1 h
  intro d hd
  obtain ⟨source, _, hsource⟩ := Except.mem_of_mapM_ok hsources d hd
  exact types_of_ofSource hsource

/-! ## The kinds in a compiled schema -/

section Compiled

variable {P : Kind → Prop}

theorem TypeTree.everywhere_compile (hP : Kind.Built P)
    {resolve : Position → Text → Logged Kind}
    (hres : ∀ q name k, (resolve q name).result = .ok k → k.Everywhere P) {t : TypeTree}
    (ht : t.Proper) {p : Position} {k : Kind} (h : (t.compile resolve p).result = .ok k) :
    k.Everywhere P := by
  induction t generalizing p k with
  | literals values =>
    cases h
    rintro u ⟨⟩
    exact hP.enum values (ht.literals p p values .self)
  | union branches ih =>
    simp only [compile] at h
    obtain ⟨kinds, hkinds, rfl⟩ := Logged.bind_pure_ok.1 h
    rw [compileBranches_eq] at hkinds
    rintro u (_ | ⟨hmem, hin⟩)
    · have hlen := (Logged.mapM_ok.1 hkinds).length_eq
      exact hP.union kinds (hlen ▸ ht.union p p branches .self)
    · obtain ⟨k, hk, rfl⟩ := List.mem_map.1 hmem
      obtain ⟨b, hb, hb'⟩ := Logged.mem_of_mapM_ok hkinds k hk
      exact ih b hb (ht.part (.branch (p := p) hb .self)) hb' u hin
  | record v ih =>
    simp only [compile] at h
    obtain ⟨k, hk, rfl⟩ := Logged.bind_pure_ok.1 h
    rintro u (_ | _ | _ | _ | hin)
    · exact hP.record k
    · exact ih (ht.part (.value (p := p) .self)) hk u hin
  | array v ih =>
    simp only [compile] at h
    obtain ⟨k, hk, rfl⟩ := Logged.bind_pure_ok.1 h
    rintro u (_ | _ | _ | hin)
    · exact hP.array k
    · exact ih (ht.part (.item (p := p) .self)) hk u hin
  | named name => exact hres p name k h
  | malformed cause => cases h

namespace Declaration

variable {declarations : List Declaration} {options : Options}

theorem everywhere_resolve (hP : Kind.Built P)
    (hproper : ∀ d ∈ declarations, ∀ t ∈ d.types, t.Proper) {stack : List Text} {member : Text}
    {position : Position} {name : Text} {k : Kind}
    (h : (resolve declarations options stack member position name).result = .ok k) :
    k.Everywhere P := by
  refine resolve_ok_ind (motive := fun _ _ k => k.Everywhere P) ?_ ?_ ?_ h
  · intro stack position p
    exact hP.everywhere_primitive _ _ p
  · intro stack position
    exact hP.everywhere_fallback position
  · intro stack member position name d k hfind hstack ih h
    have hread : ∀ r ∈ d.readings member position, ∀ k,
        (r.compile (resolve declarations options (stack ++ [name]))).result = .ok k →
        k.Everywhere P := fun r hr k hk =>
      TypeTree.everywhere_compile hP (ih r.member)
        (hproper d (List.mem_of_find?_eq_some hfind) _ (type_mem_of_reading hr)) hk
    rcases reading_of_expand_ok h with ⟨r, hr, hk⟩ | ⟨fields, rfl, hfields⟩
    · exact hread r hr k hk
    · refine hP.everywhere_object fun f hf => ?_
      obtain ⟨r, hr, hk⟩ := hfields f hf
      exact hread r hr f.kind hk

theorem everywhere_compile (hP : Kind.Built P)
    (hproper : ∀ d ∈ declarations, ∀ t ∈ d.types, t.Proper) {root : Text} {roots : List Schema}
    (h : (compile declarations options root).result = .ok roots) :
    ∀ s ∈ roots, s.kind.Everywhere P := by
  obtain ⟨d, hfind, hread⟩ := reading_of_compile_ok h
  intro s hs
  obtain ⟨r, hr, hk⟩ := hread s hs
  exact TypeTree.everywhere_compile hP (fun q name k hk => everywhere_resolve hP hproper hk)
    (hproper d (List.mem_of_find?_eq_some hfind) _ (type_mem_of_reading hr)) hk

theorem everywhere_compileText (hP : Kind.Built P) {root t : Text} {roots : List Schema}
    (h : (compileText options root t).result = .ok roots) :
    ∀ s ∈ roots, s.kind.Everywhere P := by
  obtain ⟨ds, hds, h⟩ := Logged.bind_ok.1 h
  refine everywhere_compile hP ?_ h
  intro d hd type htype
  obtain ⟨expr, rfl⟩ := types_of_ofText hds d hd type htype
  exact TypeTree.proper_ofExpr expr

end Declaration

end Compiled

end InterfaceForms

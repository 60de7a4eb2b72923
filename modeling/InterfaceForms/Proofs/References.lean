import InterfaceForms.Compile
import InterfaceForms.Proofs.Logged
import Mathlib.Logic.Relation

/-!
# References between declarations

A declaration refers to another where a name of it stands, at any depth, in the type of one of its
members or in its alias target. The key types of records are no part of a type tree, so that a
name which only stands there is no reference.

* `TypeTree.compile_succeeds`: a type compiles when it holds nothing malformed and all its names
  resolve.
* `TypeTree.cause_of_compile_error`: a failure comes from a malformed part or from a name.
* `Declaration.resolve_declared`: a declared name resolves to what its declaration expands to.
* `Declaration.resolve_ind`: induction on the declarations that are left to expand.
* `RefersTo`, `Reaches`: the graph of the declarations.
-/

namespace InterfaceForms

/-! ## The parts of a type -/

/-- `Part p t q u`: the type `u` stands, at position `q`, in the type `t` that stands at `p`. -/
inductive TypeTree.Part : Position → TypeTree → Position → TypeTree → Prop
  | self {p : Position} {t : TypeTree} : Part p t p t
  | branch {p q : Position} {branches : List TypeTree} {b u : TypeTree} (h : b ∈ branches) :
    Part .unionBranch b q u → Part p (.union branches) q u
  | value {p q : Position} {v u : TypeTree} : Part .recordValue v q u → Part p (.record v) q u
  | item {p q : Position} {v u : TypeTree} : Part .arrayItem v q u → Part p (.array v) q u

namespace TypeTree

@[induction_eliminator]
theorem ind {motive : TypeTree → Prop} (literals : ∀ values, motive (.literals values))
    (union : ∀ branches, (∀ b ∈ branches, motive b) → motive (.union branches))
    (record : ∀ v, motive v → motive (.record v)) (array : ∀ v, motive v → motive (.array v))
    (named : ∀ name, motive (.named name)) (malformed : ∀ cause, motive (.malformed cause)) :
    ∀ t, motive t
  | .literals values => literals values
  | .union branches => union branches fun b _ =>
    ind literals union record array named malformed b
  | .record v => record v (ind literals union record array named malformed v)
  | .array v => array v (ind literals union record array named malformed v)
  | .named name => named name
  | .malformed cause => malformed cause

/-- A part of a type is one at whatever position the type stands, unless it is the whole type. -/
theorem Part.reposition {p q : Position} {t u : TypeTree} (h : Part p t q u) (p' : Position) :
    ∃ q', Part p' t q' u := by
  cases h with
  | self => exact ⟨p', .self⟩
  | branch hb h => exact ⟨q, .branch hb h⟩
  | value h => exact ⟨q, .value h⟩
  | item h => exact ⟨q, .item h⟩

theorem Part.trans {p q r : Position} {t u w : TypeTree} (h : Part p t q u) (h' : Part q u r w) :
    Part p t r w := by
  induction h with
  | self => exact h'
  | branch hb _ ih => exact .branch hb (ih h')
  | value _ ih => exact .value (ih h')
  | item _ ih => exact .item (ih h')

/-- The name is part of the type and is not that of a primitive type. -/
def Mentions (t : TypeTree) (name : Text) : Prop :=
  Primitive.ofName? name = none ∧ ∃ q, Part .field t q (.named name)

/-- Every expression in the type could be read. -/
def Readable (t : TypeTree) : Prop := ∀ q cause, ¬ Part .field t q (.malformed cause)

variable {resolve : Position → Text → Logged Kind}

theorem compile_succeeds {p : Position} {t : TypeTree} :
    (t.compile resolve p).Succeeds ↔
      (∀ q cause, ¬ Part p t q (.malformed cause)) ∧
        ∀ q name, Part p t q (.named name) → (resolve q name).Succeeds := by
  induction t generalizing p with
  | literals values =>
    simp only [compile]
    exact iff_of_true (Logged.succeeds_pure _) ⟨nofun, nofun⟩
  | union branches ih =>
    simp only [compile, Logged.succeeds_bind_pure, compileBranches_eq, Logged.succeeds_mapM]
    constructor
    · intro h
      constructor
      · rintro q cause (_ | ⟨hb, hpart⟩)
        exact ((ih _ hb).1 (h _ hb)).1 q cause hpart
      · rintro q name (_ | ⟨hb, hpart⟩)
        exact ((ih _ hb).1 (h _ hb)).2 q name hpart
    · rintro ⟨hread, hres⟩ b hb
      refine (ih b hb).2 ⟨?_, ?_⟩
      · intro q cause hpart
        exact hread q cause (.branch hb hpart)
      · intro q name hpart
        exact hres q name (.branch hb hpart)
  | record v ih =>
    simp only [compile, Logged.succeeds_bind_pure, ih]
    constructor
    · rintro ⟨hread, hres⟩
      constructor
      · rintro q cause ⟨⟩
        exact hread q cause ‹_›
      · rintro q name ⟨⟩
        exact hres q name ‹_›
    · rintro ⟨hread, hres⟩
      exact ⟨fun q cause h => hread q cause (.value h), fun q name h => hres q name (.value h)⟩
  | array v ih =>
    simp only [compile, Logged.succeeds_bind_pure, ih]
    constructor
    · rintro ⟨hread, hres⟩
      constructor
      · rintro q cause ⟨⟩
        exact hread q cause ‹_›
      · rintro q name ⟨⟩
        exact hres q name ‹_›
    · rintro ⟨hread, hres⟩
      exact ⟨fun q cause h => hread q cause (.item h), fun q name h => hres q name (.item h)⟩
  | named name =>
    simp only [compile]
    constructor
    · intro h
      refine ⟨nofun, ?_⟩
      rintro q name ⟨⟩
      exact h
    · rintro ⟨_, hres⟩
      exact hres p name .self
  | malformed cause =>
    simp only [compile]
    constructor
    · intro h
      exact absurd h (Logged.not_succeeds_fail cause)
    · rintro ⟨hread, _⟩
      exact absurd .self (hread p cause)

theorem cause_of_compile_error {p : Position} {t : TypeTree} {e : ParseError}
    (h : (t.compile resolve p).result = .error e) :
    (∃ q, Part p t q (.malformed e)) ∨
      ∃ q name, Part p t q (.named name) ∧ (resolve q name).result = .error e := by
  induction t generalizing p with
  | literals values => cases h
  | union branches ih =>
    simp only [compile, Logged.bind_pure_error, compileBranches_eq] at h
    obtain ⟨b, hb, h⟩ := Logged.mem_of_mapM_error h
    rcases ih b hb h with ⟨q, hpart⟩ | ⟨q, name, hpart, hres⟩
    · exact .inl ⟨q, .branch hb hpart⟩
    · exact .inr ⟨q, name, .branch hb hpart, hres⟩
  | record v ih =>
    simp only [compile, Logged.bind_pure_error] at h
    rcases ih h with ⟨q, hpart⟩ | ⟨q, name, hpart, hres⟩
    · exact .inl ⟨q, .value hpart⟩
    · exact .inr ⟨q, name, .value hpart, hres⟩
  | array v ih =>
    simp only [compile, Logged.bind_pure_error] at h
    rcases ih h with ⟨q, hpart⟩ | ⟨q, name, hpart, hres⟩
    · exact .inl ⟨q, .item hpart⟩
    · exact .inr ⟨q, name, .item hpart, hres⟩
  | named name =>
    simp only [compile] at h
    exact .inr ⟨p, name, .self, h⟩
  | malformed cause =>
    simp only [compile, Logged.fail] at h
    cases h
    exact .inl ⟨p, .self⟩

end TypeTree

/-! ## What cannot be read -/

theorem Shape.ofExpr_error {expr : Text} {e : ParseError} (h : Shape.ofExpr expr = .error e) :
    ∃ inner, e = .malformedRecord inner := by
  unfold ofExpr ofAlternatives at h
  split at h
  · cases h
  · split at h
    · cases h
    · unfold ofSingle at h
      split at h
      · cases h
      · split at h
        · cases h
          exact ⟨_, rfl⟩
        · split at h
          · split at h
            · cases h
            · cases h
              exact ⟨_, rfl⟩
          · cases h
  · split at h <;> cases h

/-- A part of the tree of a shape is the tree itself, a primitive or quoted branch, or a part of
the tree of an expression inside the shape. -/
theorem Shape.part_tree {s : Shape} {p q : Position} {u : TypeTree} (h : s.tree.Part p q u) :
    (u = s.tree ∧ q = p) ∨ (∃ type : Primitive, u = .named type.name) ∨
      (∃ value, u = .literals [value]) ∨
      ∃ e ∈ s.inner, ∃ p', (TypeTree.ofExpr e).Part p' q u := by
  cases s with
  | enum values =>
    cases h
    exact .inl ⟨rfl, rfl⟩
  | union branches =>
    rcases h with _ | ⟨hmem, hpart⟩
    · exact .inl ⟨rfl, rfl⟩
    · obtain ⟨b, hb, rfl⟩ := List.mem_map.1 hmem
      cases b with
      | primitive type =>
        cases hpart
        exact .inr (.inl ⟨type, rfl⟩)
      | literal value =>
        cases hpart
        exact .inr (.inr (.inl ⟨value, rfl⟩))
      | reference e =>
        exact .inr (.inr (.inr ⟨e, List.mem_filterMap.2 ⟨_, hb, rfl⟩, _, hpart⟩))
  | record key value =>
    rcases h with _ | _ | hpart
    · exact .inl ⟨rfl, rfl⟩
    · exact .inr (.inr (.inr ⟨value, List.mem_singleton_self _, _, hpart⟩))
  | array element =>
    rcases h with _ | _ | _ | hpart
    · exact .inl ⟨rfl, rfl⟩
    · exact .inr (.inr (.inr ⟨element, List.mem_singleton_self _, _, hpart⟩))
  | named name =>
    cases h
    exact .inl ⟨rfl, rfl⟩

/-- Induction on the length of an expression: the expressions inside its shape are shorter. -/
theorem Shape.ofExpr_ind {motive : Text → Prop}
    (malformed : ∀ expr cause, ofExpr expr = .error cause → motive expr)
    (shape : ∀ expr s, ofExpr expr = .ok s → (∀ e ∈ s.inner, motive e) → motive expr) :
    ∀ expr, motive expr := by
  intro expr
  induction hlen : expr.length using Nat.strongRecOn generalizing expr with
  | ind n ih =>
    cases hshape : ofExpr expr with
    | error cause => exact malformed expr cause hshape
    | ok s =>
      refine shape expr s hshape ?_
      intro e he
      have hlt := length_lt_of_mem_inner hshape he
      exact ih e.length (hlen ▸ hlt) e rfl

theorem Shape.tree_malformed_of_inner {s : Shape} {P : ParseError → Prop}
    (h : ∀ e ∈ s.inner, ∀ p q cause, (TypeTree.ofExpr e).Part p q (.malformed cause) → P cause)
    {p q : Position} {cause : ParseError} (hpart : s.tree.Part p q (.malformed cause)) :
    P cause := by
  rcases part_tree hpart with ⟨htree, _⟩ | ⟨_, htree⟩ | ⟨_, htree⟩ | ⟨e, he, p', hpart⟩
  · cases s <;> cases htree
  · cases htree
  · cases htree
  · exact h e he p' q cause hpart

theorem TypeTree.ofExpr_malformed (expr : Text) : ∀ p q cause,
    (ofExpr expr).Part p q (.malformed cause) → ∃ inner, cause = .malformedRecord inner := by
  induction expr using Shape.ofExpr_ind with
  | malformed expr cause hshape =>
    rw [ofExpr_eq, hshape]
    rintro p q _ ⟨⟩
    exact Shape.ofExpr_error hshape
  | shape expr s hshape ih =>
    rw [ofExpr_eq, hshape]
    intro p q cause hpart
    exact Shape.tree_malformed_of_inner ih hpart

theorem Shape.tree_malformed {s : Shape} {p q : Position} {cause : ParseError}
    (hpart : s.tree.Part p q (.malformed cause)) : ∃ inner, cause = .malformedRecord inner :=
  tree_malformed_of_inner (fun e _ => TypeTree.ofExpr_malformed e) hpart

/-! ## The types of a declaration -/

/-- A type of a declaration with the name of the member that it is the type of and the position it
is read at. -/
structure Reading where
  member : Text
  position : Position
  type : TypeTree

def Reading.compile (resolve : Text → Position → Text → Logged Kind) (r : Reading) : Logged Kind :=
  r.type.compile (resolve r.member) r.position

namespace Declaration

/-- The types of a declaration. The target of an alias is read for the member and at the position
that its name stands at. -/
def readings (d : Declaration) (member : Text) (position : Position) : List Reading :=
  match d.body with
  | .block members => members.map fun m => ⟨m.name, .field, m.shape.tree⟩
  | .alias target => [⟨member, position, target.shape.tree⟩]

def types (d : Declaration) : List TypeTree :=
  match d.body with
  | .block members => members.map fun m => m.shape.tree
  | .alias target => [target.shape.tree]

/-- The name stands in one of the types of the declaration. -/
def Mentions (d : Declaration) (name : Text) : Prop := ∃ t ∈ d.types, t.Mentions name

def Readable (d : Declaration) : Prop := ∀ t ∈ d.types, t.Readable

/-- A source is read as a block of the members in its lines, or as an alias of its expression. -/
theorem ofSource_cases {source : Source} {d : Declaration} (h : ofSource source = .ok d) :
    (∃ lines members, source.body = .block lines ∧ lines.mapM MemberLine.member? = .ok members ∧
      d = ⟨source.name, .block (members.filterMap id)⟩) ∨
    ∃ expr shape, source.body = .alias expr ∧ Shape.ofExpr expr = .ok shape ∧
      d = ⟨source.name, .alias ⟨[], false, Text.trim expr, none, shape⟩⟩ := by
  obtain ⟨name, line, lines | expr⟩ := source
  · cases hlines : lines.mapM MemberLine.member? with
    | error e =>
      simp only [ofSource, hlines] at h
      cases h
    | ok members =>
      simp only [ofSource, hlines] at h
      cases h
      exact .inl ⟨lines, members, rfl, hlines, rfl⟩
  · cases hshape : Shape.ofExpr expr with
    | error e =>
      simp only [ofSource, Member.ofAlias, hshape] at h
      cases h
    | ok shape =>
      simp only [ofSource, Member.ofAlias, hshape] at h
      cases h
      exact .inr ⟨expr, shape, rfl, hshape, rfl⟩

theorem map_type_readings (d : Declaration) (member : Text) (position : Position) :
    (d.readings member position).map Reading.type = d.types := by
  unfold readings types
  split
  · rw [List.map_map]
    rfl
  · rfl

theorem type_mem_of_reading {d : Declaration} {member : Text} {position : Position} {r : Reading}
    (h : r ∈ d.readings member position) : r.type ∈ d.types :=
  map_type_readings d member position ▸ List.mem_map_of_mem h

theorem exists_shape_of_reading {d : Declaration} {member : Text} {position : Position}
    {r : Reading} (h : r ∈ d.readings member position) : ∃ s : Shape, r.type = s.tree := by
  obtain ⟨_, members | target⟩ := d
  · obtain ⟨m, _, rfl⟩ := List.mem_map.1 h
    exact ⟨m.shape, rfl⟩
  · obtain rfl := List.mem_singleton.1 h
    exact ⟨target.shape, rfl⟩

/-! ## What a declared name resolves to -/

/-- The kind of a declaration whose name stands for `member` at `position`. -/
def expand (d : Declaration) (resolve : Text → Position → Text → Logged Kind) (member : Text)
    (position : Position) : Logged Kind :=
  match d.body with
  | .block members => return .object (← members.mapM fun m => m.compile (resolve m.name))
  | .alias target => target.shape.tree.compile (resolve member) position

variable {declarations : List Declaration} {options : Options} {stack : List Text}
  {member : Text} {position : Position} {name : Text}

theorem resolve_primitive {p : Primitive} (h : Primitive.ofName? name = some p) :
    resolve declarations options stack member position name =
      pure (p.compile options.arrayPrimitives position) := by
  rw [resolve]
  split
  · rename_i p' hp'
    rw [h] at hp'
    rw [Option.some.inj hp']
  · rename_i hp'
    rw [h] at hp'
    cases hp'

theorem resolve_undeclared (h : Primitive.ofName? name = none)
    (hfind : find? declarations name = none) :
    resolve declarations options stack member position name =
      unknownType options.unknownTypes ⟨stack.getLast?.getD [], member⟩ position name := by
  rw [resolve]
  split
  · rename_i hp
    rw [h] at hp
    cases hp
  · split
    · rfl
    · rename_i hd
      rw [hfind] at hd
      cases hd

theorem resolve_cyclic {d : Declaration} (h : Primitive.ofName? name = none)
    (hfind : find? declarations name = some d) (hstack : name ∈ stack) :
    resolve declarations options stack member position name =
      Logged.fail (.cyclicReference (stack.dropWhile (· ≠ name) ++ [name])) := by
  rw [resolve]
  split
  · rename_i hp
    rw [h] at hp
    cases hp
  · split
    · rename_i hd
      rw [hfind] at hd
      cases hd
    · rw [dif_pos hstack]

theorem resolve_declared {d : Declaration} (h : Primitive.ofName? name = none)
    (hfind : find? declarations name = some d) (hstack : name ∉ stack) :
    resolve declarations options stack member position name =
      d.expand (resolve declarations options (stack ++ [name])) member position := by
  rw [resolve]
  split
  · rename_i hp
    rw [h] at hp
    cases hp
  · split
    · rename_i hd
      rw [hfind] at hd
      cases hd
    · rename_i d' hd
      rw [hfind] at hd
      obtain rfl := Option.some.inj hd
      rw [dif_neg hstack]
      rfl

/-- Induction on the declarations that are left to expand. A name is that of a primitive type, or
nothing declares it, or it is being expanded already; or else the names in its declaration are
resolved with it on the stack. -/
theorem resolve_ind (declarations : List Declaration) {motive : List Text → Text → Prop}
    (primitive : ∀ stack name p, Primitive.ofName? name = some p → motive stack name)
    (undeclared : ∀ stack name, Primitive.ofName? name = none →
      find? declarations name = none → motive stack name)
    (cyclic : ∀ stack name d, Primitive.ofName? name = none →
      find? declarations name = some d → name ∈ stack → motive stack name)
    (declared : ∀ stack name d, Primitive.ofName? name = none →
      find? declarations name = some d → name ∉ stack →
      (∀ other, motive (stack ++ [name]) other) → motive stack name)
    (stack : List Text) (name : Text) : motive stack name := by
  induction hlen : (pending declarations stack).length using Nat.strongRecOn
    generalizing stack name with
  | ind n ih =>
    cases hprim : Primitive.ofName? name with
    | some p => exact primitive stack name p hprim
    | none =>
      cases hfind : find? declarations name with
      | none => exact undeclared stack name hprim hfind
      | some d =>
        by_cases hstack : name ∈ stack
        · exact cyclic stack name d hprim hfind hstack
        · have hlt := length_pending_lt hfind hstack
          exact declared stack name d hprim hfind hstack fun other => ih _ (hlen ▸ hlt) _ other rfl

/-- The kind that a name stands for is that of a primitive type, what is taken for an unknown one,
or what its declaration expands to. -/
theorem resolve_ok_ind {motive : List Text → Position → Kind → Prop}
    (primitive : ∀ stack position (p : Primitive),
      motive stack position (p.compile options.arrayPrimitives position))
    (fallback : ∀ stack (position : Position), motive stack position position.fallback)
    (declared : ∀ stack member position name d k, find? declarations name = some d →
      name ∉ stack →
      (∀ m q other k, (resolve declarations options (stack ++ [name]) m q other).result = .ok k →
        motive (stack ++ [name]) q k) →
      (d.expand (resolve declarations options (stack ++ [name])) member position).result = .ok k →
      motive stack position k)
    {k : Kind} (h : (resolve declarations options stack member position name).result = .ok k) :
    motive stack position k := by
  induction stack, name using resolve_ind declarations generalizing member position k with
  | primitive stack name p hprim =>
    rw [resolve_primitive hprim] at h
    cases h
    exact primitive stack position p
  | undeclared stack name hprim hfind =>
    rw [resolve_undeclared hprim hfind] at h
    cases hpolicy : options.unknownTypes with
    | reject =>
      rw [hpolicy] at h
      cases h
    | asString =>
      rw [hpolicy] at h
      cases h
      exact fallback stack position
  | cyclic stack name d hprim hfind hstack =>
    rw [resolve_cyclic hprim hfind hstack] at h
    cases h
  | declared stack name d hprim hfind hstack ih =>
    rw [resolve_declared hprim hfind hstack] at h
    exact declared stack member position name d k hfind hstack (fun m q other k hk => ih other hk) h

/-- Whether a declaration expands is decided by its types one by one. -/
theorem expand_succeeds {d : Declaration} {resolve : Text → Position → Text → Logged Kind} :
    (d.expand resolve member position).Succeeds ↔
      ∀ r ∈ d.readings member position, (r.compile resolve).Succeeds := by
  obtain ⟨_, members | target⟩ := d
  · simp only [expand, Logged.succeeds_bind_pure, Logged.succeeds_mapM, Member.compile, readings,
      List.forall_mem_map]
    rfl
  · simp only [expand, readings, List.mem_singleton, forall_eq]
    rfl

theorem reading_of_expand_error {d : Declaration} {e : ParseError}
    {resolve : Text → Position → Text → Logged Kind}
    (h : (d.expand resolve member position).result = .error e) :
    ∃ r ∈ d.readings member position, (r.compile resolve).result = .error e := by
  obtain ⟨_, members | target⟩ := d
  · obtain ⟨m, hm, h⟩ := Logged.mem_of_mapM_error (Logged.bind_pure_error.1 h)
    exact ⟨_, List.mem_map_of_mem hm, Logged.bind_pure_error.1 h⟩
  · exact ⟨_, List.mem_singleton_self _, h⟩

theorem member_of_field {resolve : Text → Position → Text → Logged Kind}
    {members : List Member} {fields : List Schema}
    (h : (members.mapM fun m : Member => m.compile (resolve m.name)).result = .ok fields) :
    ∀ f ∈ fields, ∃ m ∈ members,
      (Reading.compile resolve ⟨m.name, .field, m.shape.tree⟩).result = .ok f.kind := by
  intro f hf
  obtain ⟨m, hm, hcompile⟩ := Logged.mem_of_mapM_ok h f hf
  obtain ⟨k, hk, rfl⟩ := Logged.bind_pure_ok.1 hcompile
  exact ⟨m, hm, hk⟩

/-- A declaration expands to what its one type compiles to, or to an object of such. -/
theorem reading_of_expand_ok {d : Declaration} {k : Kind}
    {resolve : Text → Position → Text → Logged Kind}
    (h : (d.expand resolve member position).result = .ok k) :
    (∃ r ∈ d.readings member position, (r.compile resolve).result = .ok k) ∨
      ∃ fields, k = .object fields ∧ ∀ f ∈ fields,
        ∃ r ∈ d.readings member position, (r.compile resolve).result = .ok f.kind := by
  obtain ⟨_, members | target⟩ := d
  · obtain ⟨fields, hfields, rfl⟩ := Logged.bind_pure_ok.1 h
    refine .inr ⟨fields, rfl, fun f hf => ?_⟩
    obtain ⟨m, hm, hk⟩ := member_of_field hfields f hf
    exact ⟨_, List.mem_map_of_mem hm, hk⟩
  · exact .inl ⟨_, List.mem_singleton_self _, h⟩

/-! ## The root -/

/-- The member that the target of a root alias is read for. -/
def ownMember (d : Declaration) : Text :=
  match d.body with
  | .block _ => []
  | .alias target => target.name

theorem compile_undeclared {root : Text} (hfind : find? declarations root = none) :
    compile declarations options root = Logged.fail (.rootNotFound root) := by
  simp only [compile, hfind]

theorem compile_succeeds {root : Text} {d : Declaration}
    (hfind : find? declarations root = some d) :
    (compile declarations options root).Succeeds ↔ ∀ r ∈ d.readings d.ownMember .field,
      (r.compile (resolve declarations options [root])).Succeeds := by
  simp only [compile, hfind]
  obtain ⟨_, members | target⟩ := d
  · simp only [Logged.succeeds_mapM, Member.compile, Logged.succeeds_bind_pure, readings,
      List.forall_mem_map]
    rfl
  · simp only [Member.compile, Logged.succeeds_bind_pure, readings, ownMember,
      List.mem_singleton, forall_eq]
    rfl

theorem reading_of_compile_error {root : Text} {e : ParseError} {d : Declaration}
    (hfind : find? declarations root = some d)
    (h : (compile declarations options root).result = .error e) :
    ∃ r ∈ d.readings d.ownMember .field,
      (r.compile (resolve declarations options [root])).result = .error e := by
  simp only [compile, hfind] at h
  obtain ⟨_, members | target⟩ := d
  · obtain ⟨m, hm, h⟩ := Logged.mem_of_mapM_error h
    exact ⟨_, List.mem_map_of_mem hm, Logged.bind_pure_error.1 h⟩
  · exact ⟨_, List.mem_singleton_self _, Logged.bind_pure_error.1 (Logged.bind_pure_error.1 h)⟩

/-- Each schema of the root has the kind of a type in its declaration. -/
theorem reading_of_compile_ok {root : Text} {roots : List Schema}
    (h : (compile declarations options root).result = .ok roots) :
    ∃ d, find? declarations root = some d ∧ ∀ s ∈ roots, ∃ r ∈ d.readings d.ownMember .field,
      (r.compile (resolve declarations options [root])).result = .ok s.kind := by
  cases hfind : find? declarations root with
  | none =>
    rw [compile_undeclared hfind] at h
    cases h
  | some d =>
    refine ⟨d, rfl, fun s hs => ?_⟩
    simp only [compile, hfind] at h
    obtain ⟨_, members | target⟩ := d
    · obtain ⟨m, hm, hk⟩ := member_of_field h s hs
      exact ⟨_, List.mem_map_of_mem hm, hk⟩
    · obtain ⟨s', hs', rfl⟩ := Logged.bind_pure_ok.1 h
      obtain ⟨k, hk, rfl⟩ := Logged.bind_pure_ok.1 hs'
      obtain rfl := List.mem_singleton.1 hs
      exact ⟨_, List.mem_singleton_self _, hk⟩

/-! ## From a declaration to the names in it -/

section Names

variable {d : Declaration}

theorem readable_of_succeeds {resolve : Text → Position → Text → Logged Kind}
    (h : ∀ r ∈ d.readings member position, (r.compile resolve).Succeeds) : d.Readable := by
  intro t ht q cause hpart
  rw [← map_type_readings d member position] at ht
  obtain ⟨r, hr, rfl⟩ := List.mem_map.1 ht
  obtain ⟨q', hpart'⟩ := hpart.reposition r.position
  exact (TypeTree.compile_succeeds.1 (h r hr)).1 q' cause hpart'

theorem resolves_of_succeeds {resolve : Text → Position → Text → Logged Kind}
    (h : ∀ r ∈ d.readings member position, (r.compile resolve).Succeeds)
    (hname : d.Mentions name) : ∃ m q, (resolve m q name).Succeeds := by
  obtain ⟨t, ht, _, q, hpart⟩ := hname
  rw [← map_type_readings d member position] at ht
  obtain ⟨r, hr, rfl⟩ := List.mem_map.1 ht
  obtain ⟨q', hpart'⟩ := hpart.reposition r.position
  exact ⟨r.member, q', (TypeTree.compile_succeeds.1 (h r hr)).2 q' name hpart'⟩

theorem mentions_of_part {r : Reading} {q : Position} (hr : r ∈ d.readings member position)
    (hpart : r.type.Part r.position q (.named name)) (h : Primitive.ofName? name = none) :
    d.Mentions name := by
  obtain ⟨q', hpart'⟩ := hpart.reposition .field
  exact ⟨r.type, type_mem_of_reading hr, h, q', hpart'⟩

theorem succeeds_of_resolves (hread : d.Readable)
    (h : ∀ name, d.Mentions name →
      ∀ m q, (resolve declarations options stack m q name).Succeeds) :
    ∀ r ∈ d.readings member position,
      (r.compile (resolve declarations options stack)).Succeeds := by
  intro r hr
  refine TypeTree.compile_succeeds.2 ⟨?_, ?_⟩
  · intro q cause hpart
    obtain ⟨q', hpart'⟩ := hpart.reposition .field
    exact hread r.type (type_mem_of_reading hr) q' cause hpart'
  · intro q name hpart
    cases hprim : Primitive.ofName? name with
    | some p =>
      rw [resolve_primitive hprim]
      exact Logged.succeeds_pure _
    | none => exact h name (mentions_of_part hr hpart hprim) r.member q

/-- A failure inside a declaration is that of a malformed record or of a name it mentions. -/
theorem cause_of_reading_error {r : Reading} {e : ParseError}
    (hr : r ∈ d.readings member position)
    (h : (r.compile (resolve declarations options stack)).result = .error e) :
    (∃ expr, e = .malformedRecord expr) ∨ ∃ name m q, d.Mentions name ∧
      (resolve declarations options stack m q name).result = .error e := by
  rcases TypeTree.cause_of_compile_error h with ⟨q, hpart⟩ | ⟨q, name, hpart, hres⟩
  · left
    obtain ⟨s, hs⟩ := exists_shape_of_reading hr
    rw [hs] at hpart
    exact Shape.tree_malformed hpart
  · right
    cases hprim : Primitive.ofName? name with
    | some p =>
      rw [resolve_primitive hprim] at hres
      cases hres
    | none => exact ⟨name, r.member, q, mentions_of_part hr hpart hprim, hres⟩

end Names

end Declaration

/-! ## The graph -/

section Graph

variable (declarations : List Declaration)

def Declared (name : Text) : Prop := ∃ d, Declaration.find? declarations name = some d

/-- The declaration named `a` mentions `b`, which is declared. -/
def RefersTo (a b : Text) : Prop :=
  ∃ d, Declaration.find? declarations a = some d ∧ d.Mentions b ∧ Declared declarations b

/-- A chain of references, perhaps an empty one, leads from one name to the other. -/
def Reaches : Text → Text → Prop := Relation.ReflTransGen (RefersTo declarations)

/-- A chain of at least one reference leads from the name back to it. -/
def OnCycle (name : Text) : Prop := Relation.TransGen (RefersTo declarations) name name

end Graph

end InterfaceForms

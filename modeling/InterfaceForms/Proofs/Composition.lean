import InterfaceForms.Proofs.Related
import InterfaceForms.Proofs.Success
import InterfaceForms.Session

/-!
# Expansion is compositional

The stack and the member only matter for failures and warnings: what compiles under a stack
compiles to the same kind under every part of it, for every member. So a block is the same object
wherever it is met, and that object has the fields that the block has as a root.

* `Declaration.resolve_subset`: a smaller stack and another member give the same kind.
* `TypeTree.Meets`: the names met on the way into a type.
* `Declaration.compile_compositional`: the statement for types and for roots.
-/

namespace InterfaceForms

/-! ## What compiles under a stack -/

namespace Logged

variable {α β γ δ : Type}

/-- Where `x` gives a value, `y` gives a related one. -/
def Carries (r : α → β → Prop) (x : Logged α) (y : Logged β) : Prop :=
  ∀ a, x.result = .ok a → ∃ b, y.result = .ok b ∧ r a b

theorem Carries.bind {r : α → β → Prop} {q : γ → δ → Prop} {x : Logged α} {y : Logged β}
    {f : α → Logged γ} {g : β → Logged δ} (h : Carries r x y)
    (hfg : ∀ a b, r a b → Carries q (f a) (g b)) : Carries q (x >>= f) (y >>= g) := by
  intro c hc
  obtain ⟨a, ha, hc⟩ := bind_ok.1 hc
  obtain ⟨b, hb, hab⟩ := h a ha
  obtain ⟨d, hd, hcd⟩ := hfg a b hab c hc
  exact ⟨d, bind_ok.2 ⟨b, hb, hd⟩, hcd⟩

def carries : Lifting where
  Rel := Carries
  pure h a ha := ⟨_, rfl, Except.ok.inj ha ▸ h⟩
  fail _ a ha := by cases ha
  bind := Carries.bind

end Logged

namespace Declaration

variable {declarations : List Declaration} {options : Options}

/-- What is taken for an undeclared name depends on its position only. -/
theorem unknownType_carries (policy : UnknownTypePolicy) (context context' : Context)
    (position : Position) (name : Text) :
    Logged.Carries Eq (unknownType policy context position name)
      (unknownType policy context' position name) := by
  intro k hk
  cases policy with
  | reject => cases hk
  | asString => exact ⟨k, hk, rfl⟩

theorem resolve_subset {stack stack' : List Text} (hsub : stack' ⊆ stack)
    (member member' : Text) (position : Position) (name : Text) :
    Logged.Carries Eq (resolve declarations options stack member position name)
      (resolve declarations options stack' member' position name) := by
  induction stack, name using resolve_ind declarations
    generalizing stack' member member' position with
  | primitive stack name p hprim =>
    rw [resolve_primitive hprim, resolve_primitive hprim]
    exact Logged.carries.pure rfl
  | undeclared stack name hprim hfind =>
    rw [resolve_undeclared hprim hfind, resolve_undeclared hprim hfind]
    exact unknownType_carries _ _ _ position name
  | cyclic stack name d hprim hfind hstack =>
    rw [resolve_cyclic hprim hfind hstack]
    intro k hk
    cases hk
  | declared stack name d hprim hfind hstack ih =>
    have hstack' : name ∉ stack' := fun hmem => hstack (hsub hmem)
    rw [resolve_declared hprim hfind hstack, resolve_declared hprim hfind hstack']
    have hsub' : stack' ++ [name] ⊆ stack ++ [name] :=
      List.append_subset.2 ⟨List.subset_append_of_subset_left _ hsub,
        List.subset_append_right _ _⟩
    have hinner : ∀ m m' p other, Logged.carries.Rel Eq
        (resolve declarations options (stack ++ [name]) m p other)
        (resolve declarations options (stack' ++ [name]) m' p other) :=
      fun m m' p other => ih other hsub' m m' p
    exact expand_related Kind.congruent_eq (fun m => hinner m m) (hinner member member') position

end Declaration

/-! ## The names met on the way -/

/-- `Meets declarations t path name`: the way along `path` into the type `t`, which goes on in the
target of each alias and in a member of each block it comes to, leads to the name. -/
inductive TypeTree.Meets (declarations : List Declaration) :
    TypeTree → List SchemaStep → Text → Prop
  | here {name : Text} : Meets declarations (.named name) [] name
  | branch {branches : List TypeTree} {i : Nat} {b : TypeTree} {path : List SchemaStep}
    {name : Text} (h : branches[i]? = some b) :
    Meets declarations b path name → Meets declarations (.union branches) (.nth i :: path) name
  | value {v : TypeTree} {path : List SchemaStep} {name : Text} :
    Meets declarations v path name → Meets declarations (.record v) (.item :: path) name
  | item {v : TypeTree} {path : List SchemaStep} {name : Text} :
    Meets declarations v path name → Meets declarations (.array v) (.item :: path) name
  | target {other : Text} {d : Declaration} {target : Member} {path : List SchemaStep}
    {name : Text} (hprim : Primitive.ofName? other = none)
    (hfind : Declaration.find? declarations other = some d) (hbody : d.body = .alias target) :
    Meets declarations target.shape.tree path name → Meets declarations (.named other) path name
  | member {other : Text} {d : Declaration} {members : List Member} {i : Nat} {m : Member}
    {path : List SchemaStep} {name : Text} (hprim : Primitive.ofName? other = none)
    (hfind : Declaration.find? declarations other = some d) (hbody : d.body = .block members)
    (hm : members[i]? = some m) :
    Meets declarations m.shape.tree path name →
    Meets declarations (.named other) (.nth i :: path) name

theorem exists_getElem?_of_forall₂ {α β : Type} {r : α → β → Prop} {l : List α} {l' : List β}
    (h : List.Forall₂ r l l') {i : Nat} {a : α} (ha : l[i]? = some a) :
    ∃ b, l'[i]? = some b ∧ r a b := by
  obtain ⟨hi, rfl⟩ := List.getElem?_eq_some_iff.1 ha
  have hi' : i < l'.length := h.length_eq ▸ hi
  exact ⟨l'[i], List.getElem?_eq_getElem hi', h.get hi hi'⟩

namespace Declaration

variable {declarations : List Declaration} {options : Options} {stack : List Text}
  {member : Text} {position : Position} {name : Text}

/-- A declared name that resolves is expanded. -/
theorem expand_of_resolve {d : Declaration} {k : Kind} (hprim : Primitive.ofName? name = none)
    (hfind : find? declarations name = some d)
    (h : (resolve declarations options stack member position name).result = .ok k) :
    (d.expand (resolve declarations options (stack ++ [name])) member position).result = .ok k := by
  have hstack := not_mem_stack_of_succeeds ⟨k, h⟩ hprim hfind
  rwa [resolve_declared hprim hfind hstack] at h

/-- What a block is where it is referred to, it is as a root. -/
theorem compile_of_resolve {d : Declaration} {members : List Member} {k : Kind}
    (hprim : Primitive.ofName? name = none) (hfind : find? declarations name = some d)
    (hbody : d.body = .block members)
    (h : (resolve declarations options stack member position name).result = .ok k) :
    ∃ fields, k = .object fields ∧ (compile declarations options name).result = .ok fields := by
  have hexpand := expand_of_resolve hprim hfind h
  simp only [expand, hbody] at hexpand
  obtain ⟨fields, hfields, rfl⟩ := Logged.bind_pure_ok.1 hexpand
  have hsub : [name] ⊆ stack ++ [name] := List.subset_append_right _ _
  have hcarries : Logged.carries.Rel (List.Forall₂ (Schema.Alike fun _ => Eq))
      (members.mapM fun m : Member =>
        m.compile (resolve declarations options (stack ++ [name]) m.name))
      (members.mapM fun m : Member => m.compile (resolve declarations options [name] m.name)) :=
    Logged.carries.mapM fun m _ =>
      m.compile_related Kind.congruent_eq (resolve_subset hsub m.name m.name)
  obtain ⟨fields', hfields', halike⟩ := hcarries fields hfields
  obtain rfl := Schema.eq_of_forall₂_alike halike
  refine ⟨fields, rfl, ?_⟩
  simp only [compile, hfind, hbody]
  exact hfields'

theorem kind_of_compile {m : Member} {resolve : Position → Text → Logged Kind} {s : Schema}
    (h : (m.compile resolve).result = .ok s) :
    (m.shape.tree.compile resolve .field).result = .ok s.kind := by
  obtain ⟨k, hk, rfl⟩ := Logged.bind_pure_ok.1 h
  exact hk

/-- Where the way into a type meets a block, the schema holds the object that the block is. -/
theorem at?_of_meets {d : Declaration} {members : List Member}
    (hprim : Primitive.ofName? name = none) (hfind : find? declarations name = some d)
    (hbody : d.body = .block members) {t : TypeTree} {path : List SchemaStep}
    (hmeets : t.Meets declarations path name) {s : Schema}
    (h : (t.compile (resolve declarations options stack member) position).result = .ok s.kind) :
    ∃ node fields, s.at? path = some node ∧ node.kind = .object fields ∧
      (compile declarations options name).result = .ok fields := by
  induction hmeets generalizing stack member position s with
  | here =>
    obtain ⟨fields, hkind, hcompile⟩ := compile_of_resolve hprim hfind hbody h
    exact ⟨s, fields, rfl, hkind, hcompile⟩
  | @branch branches i b path name hb _ ih =>
    simp only [TypeTree.compile, TypeTree.compileBranches_eq] at h
    obtain ⟨kinds, hkinds, hs⟩ := Logged.bind_pure_ok.1 h
    obtain ⟨k, hk, hbk⟩ := exists_getElem?_of_forall₂ (Logged.mapM_ok.1 hkinds) hb
    obtain ⟨node, fields, hnode, hrest⟩ := ih hprim hfind (s := .anonymous k) hbk
    refine ⟨node, fields, ?_, hrest⟩
    simp [Schema.at?, Schema.child?, ← hs, hk, hnode]
  | value _ ih =>
    simp only [TypeTree.compile] at h
    obtain ⟨k, hk, hs⟩ := Logged.bind_pure_ok.1 h
    obtain ⟨node, fields, hnode, hrest⟩ := ih hprim hfind (s := .anonymous k) hk
    refine ⟨node, fields, ?_, hrest⟩
    simp [Schema.at?, Schema.child?, Schema.item?, ← hs, hnode]
  | item _ ih =>
    simp only [TypeTree.compile] at h
    obtain ⟨k, hk, hs⟩ := Logged.bind_pure_ok.1 h
    obtain ⟨node, fields, hnode, hrest⟩ := ih hprim hfind (s := .anonymous k) hk
    refine ⟨node, fields, ?_, hrest⟩
    simp [Schema.at?, Schema.child?, Schema.item?, ← hs, hnode]
  | target hprim' hfind' hbody' _ ih =>
    have hexpand := expand_of_resolve hprim' hfind' h
    simp only [expand, hbody'] at hexpand
    exact ih hprim hfind hexpand
  | member hprim' hfind' hbody' hm _ ih =>
    have hexpand := expand_of_resolve hprim' hfind' h
    simp only [expand, hbody'] at hexpand
    obtain ⟨fields, hfields, hs⟩ := Logged.bind_pure_ok.1 hexpand
    obtain ⟨f, hf, hcompile⟩ := exists_getElem?_of_forall₂ (Logged.mapM_ok.1 hfields) hm
    obtain ⟨node, inner, hnode, hrest⟩ := ih hprim hfind (kind_of_compile hcompile)
    refine ⟨node, inner, ?_, hrest⟩
    simp [Schema.at?, Schema.child?, ← hs, hf, hnode]

/-- The roots are the places of the types of the root declaration, in their order. -/
theorem root_of_types {root : Text} {d : Declaration} {roots : List Schema}
    (hfind : find? declarations root = some d)
    (h : (compile declarations options root).result = .ok roots) {i : Nat} {t : TypeTree}
    (ht : d.types[i]? = some t) :
    ∃ s m position, roots[i]? = some s ∧
      (t.compile (resolve declarations options [root] m) position).result = .ok s.kind := by
  simp only [compile, hfind] at h
  obtain ⟨_, members | target⟩ := d
  · simp only [types, List.getElem?_map, Option.map_eq_some_iff] at ht
    obtain ⟨m, hm, rfl⟩ := ht
    obtain ⟨s, hs, hcompile⟩ := exists_getElem?_of_forall₂ (Logged.mapM_ok.1 h) hm
    exact ⟨s, m.name, .field, hs, kind_of_compile hcompile⟩
  · obtain ⟨s, hs, rfl⟩ := Logged.bind_pure_ok.1 h
    obtain ⟨hi, rfl⟩ := List.getElem?_eq_some_iff.1 ht
    obtain rfl : i = 0 := by simpa [types] using hi
    exact ⟨s, target.name, .field, rfl, kind_of_compile hs⟩

/-- Types: what compiles under a stack compiles to the same kind under each part of the stack, for
any member. Roots: where the way from a root meets a block, the schemas of the root hold an object,
and its fields are what the block compiles to as a root. -/
theorem compile_compositional (declarations : List Declaration) (options : Options) :
    (∀ (shape : Shape) position stack stack' member member' kind, stack' ⊆ stack →
      (shape.tree.compile (resolve declarations options stack member) position).result =
        .ok kind →
      (shape.tree.compile (resolve declarations options stack' member') position).result =
        .ok kind) ∧
    ∀ root d roots, find? declarations root = some d →
      (compile declarations options root).result = .ok roots →
      ∀ i t path name block members, d.types[i]? = some t → t.Meets declarations path name →
        Primitive.ofName? name = none → find? declarations name = some block →
        block.body = .block members →
        ∃ node fields, (SchemaRef.path (.nth i :: path)).find? roots = some node ∧
          node.kind = .object fields ∧
          (compile declarations options name).result = .ok fields := by
  constructor
  · intro shape position stack stack' member member' kind hsub h
    have hcarries : Logged.carries.Rel Eq
        (shape.tree.compile (resolve declarations options stack member) position)
        (shape.tree.compile (resolve declarations options stack' member') position) :=
      TypeTree.compile_related Kind.congruent_eq (resolve_subset hsub member member') _ position
    obtain ⟨_, h', rfl⟩ := hcarries kind h
    exact h'
  · intro root d roots hroot h i t path name block members ht hmeets hprim hfind hbody
    obtain ⟨s, m, position, hs, hcompile⟩ := root_of_types hroot h ht
    obtain ⟨node, fields, hnode, hrest⟩ := at?_of_meets hprim hfind hbody hmeets hcompile
    refine ⟨node, fields, ?_, hrest⟩
    simp [SchemaRef.find?, Schema.at?, Schema.child?, Schema.anonymous, hs, hnode]

/-- A block that the root refers to inside an array and, through an alias, inside a record. -/
def shared : List Declaration :=
  [⟨"Root".toList, .block [⟨"first".toList, false, "A[]".toList, none, .array "A".toList⟩,
      ⟨"second".toList, false, "B".toList, none, .named "B".toList⟩]⟩,
    ⟨"A".toList, .block [⟨"x".toList, true, "number".toList, none, .named "number".toList⟩]⟩,
    ⟨"B".toList, .alias ⟨[], false, "Record<string, A>".toList, none,
      .record "string".toList "A".toList⟩⟩]

theorem compile_shared :
    (compile shared {} "Root".toList).result = .ok
      [⟨"first".toList, false, none,
          .array (.anonymous (.object [⟨"x".toList, true, none, .number⟩]))⟩,
        ⟨"second".toList, false, none,
          .record (.anonymous (.object [⟨"x".toList, true, none, .number⟩]))⟩] ∧
    TypeTree.Meets shared (.named "B".toList) [.item] "A".toList ∧
    (compile shared {} "A".toList).result = .ok [⟨"x".toList, true, none, .number⟩] := by
  have hroot : (compile shared {} "Root".toList).result = .ok
      [⟨"first".toList, false, none,
          .array (.anonymous (.object [⟨"x".toList, true, none, .number⟩]))⟩,
        ⟨"second".toList, false, none,
          .record (.anonymous (.object [⟨"x".toList, true, none, .number⟩]))⟩] := by
    with_unfolding_all rfl
  have hmeets : TypeTree.Meets shared (.named "B".toList) [.item] "A".toList := by
    have htree : TypeTree.ofExpr "A".toList = .named "A".toList := by with_unfolding_all rfl
    refine .target (by decide) rfl rfl (.value ?_)
    rw [htree]
    exact .here
  obtain ⟨node, fields, hnode, hkind, hfields⟩ := (compile_compositional shared {}).2 _ _ _ rfl
    hroot 1 _ _ _ _ _ rfl hmeets (by decide) rfl rfl
  obtain rfl := Option.some.inj hnode
  obtain rfl := Kind.object.inj hkind
  exact ⟨hroot, hmeets, hfields⟩

end Declaration

end InterfaceForms

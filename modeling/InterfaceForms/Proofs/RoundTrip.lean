import InterfaceForms.Proofs.Meaning
import InterfaceForms.Proofs.PrintedSources
import InterfaceForms.Proofs.References

/-!
# Printed declarations compile to what they mean

From the text of well-formed declarations, in any layout, each of them is compiled to the schemas
that it means. The compiler expands names along a stack; no name comes up twice on it, because
every name on the stack leads to the one being read, and no chain of references is closed.

* `Declaration.compileText_print`: the whole way from the text to the schemas.
-/

namespace InterfaceForms

/-! ## Types and members -/

/-- What a compiler makes of names agrees with `env` on the names of a type. -/
structure Resolves (policy : ArrayPrimitivePolicy) (env : Position → Text → Kind)
    (names : Text → Prop) (resolve : Position → Text → Logged Kind) : Prop where
  primitive : ∀ position (p : Primitive),
    resolve position p.name = pure (p.compile policy position)
  name : ∀ name, names name → ∀ position, resolve position name = pure (env position name)

theorem Resolves.mono {policy : ArrayPrimitivePolicy} {env : Position → Text → Kind}
    {names names' : Text → Prop} {resolve : Position → Text → Logged Kind}
    (h : Resolves policy env names resolve) (hnames : ∀ n, names' n → names n) :
    Resolves policy env names' resolve :=
  ⟨h.primitive, fun n hn => h.name n (hnames n hn)⟩

section

variable {policy : ArrayPrimitivePolicy} {env : Position → Text → Kind}

namespace TypeExpr.WellFormed

theorem ofExpr_print {t : TypeExpr} (h : t.WellFormed) :
    TypeTree.ofExpr t.print = t.shape.tree := by
  rw [TypeTree.ofExpr_eq, Shape.ofExpr_print h]

/-- An alternative of a union is read as if it stood alone. -/
theorem tree_branch {t : TypeExpr} (h : t.WellFormed) : t.branch.tree = t.shape.tree := by
  cases h with
  | primitive _ => rfl
  | @literals values hne hv =>
    match values, hne, hv with
    | [v], _, _ => rfl
    | v :: w :: rest, hne, hv => exact ofExpr_print (.literals hne hv)
  | name h => exact ofExpr_print (.name h)
  | array h => exact h.array.ofExpr_print
  | record h => exact h.record.ofExpr_print
  | union hlen hmixed h => exact ofExpr_print (.union hlen hmixed h)

theorem compile_tree {t : TypeExpr} (h : t.WellFormed) {resolve : Position → Text → Logged Kind}
    (hresolve : Resolves policy env t.Mentions resolve) (position : Position) :
    t.shape.tree.compile resolve position = pure (t.kind policy env position) := by
  induction h generalizing position with
  | primitive type => exact hresolve.primitive position type
  | name _ => exact hresolve.name _ .name position
  | literals _ _ => rfl
  | @array item h ih =>
    have htree : (TypeExpr.array item).shape.tree = .array item.shape.tree :=
      congrArg TypeTree.array h.ofExpr_print
    rw [htree, TypeTree.compile, ih (hresolve.mono fun _ hn => .item hn), pure_bind, kind]
  | @record value h ih =>
    have htree : (TypeExpr.record value).shape.tree = .record value.shape.tree :=
      congrArg TypeTree.record h.ofExpr_print
    rw [htree, TypeTree.compile, ih (hresolve.mono fun _ hn => .value hn), pure_bind, kind]
  | @union ts _ _ hts ih =>
    have hbranches : TypeTree.compileBranches resolve ((ts.map branch).map Branch.tree) =
        pure (ts.map (kind policy env .unionBranch)) := by
      rw [TypeTree.compileBranches_eq, List.map_map, List.mapM_map]
      refine Logged.mapM_of_pure fun t ht => ?_
      rw [Function.comp_apply, Function.comp_apply, (hts t ht).tree_branch]
      exact ih t ht (hresolve.mono fun _ hn => .alternative ht hn) .unionBranch
    simp only [shape, Shape.tree, TypeTree.compile, hbranches, pure_bind, kind, kinds_eq]

end TypeExpr.WellFormed

theorem FieldDecl.WellFormed.compile_member {f : FieldDecl} (h : f.WellFormed)
    {resolve : Position → Text → Logged Kind}
    (hresolve : Resolves policy env f.type.Mentions resolve) :
    f.member.compile resolve = pure (f.schema policy env) := by
  have hkind := h.type.compile_tree hresolve .field
  simp only [Member.compile, FieldDecl.member, hkind, pure_bind, FieldDecl.schema]

/-! ## Declarations -/

namespace Decl.WellFormed

variable {d : Decl}

/-- The members of a block. -/
theorem mapM_compile {name : Text} {fields : List FieldDecl}
    (h : (Decl.mk name (.block fields)).WellFormed)
    {resolve : Text → Position → Text → Logged Kind}
    (hresolve : ∀ member, Resolves policy env (Decl.mk name (.block fields)).Mentions
      (resolve member)) :
    (fields.map (·.member)).mapM (fun m => m.compile (resolve m.name)) =
      pure (fields.map (·.schema policy env)) := by
  have hfields : ∀ f ∈ fields, f.WellFormed := h.body
  rw [List.mapM_map]
  refine Logged.mapM_of_pure fun f hf => ?_
  refine (hfields f hf).compile_member ((hresolve f.name).mono fun n hn => ?_)
  exact ⟨f.type, List.mem_map_of_mem hf, hn⟩

/-- The target of an alias. -/
theorem compile_target {name : Text} {target : TypeExpr}
    (h : (Decl.mk name (.alias target)).WellFormed) {resolve : Position → Text → Logged Kind}
    (hresolve : Resolves policy env (Decl.mk name (.alias target)).Mentions resolve)
    (position : Position) :
    target.shape.tree.compile resolve position = pure (target.kind policy env position) := by
  have htarget : target.WellFormed := h.body
  refine htarget.compile_tree (hresolve.mono fun n hn => ?_) position
  exact ⟨target, List.mem_singleton_self target, hn⟩

theorem expand_declaration (h : d.WellFormed) {resolve : Text → Position → Text → Logged Kind}
    (hresolve : ∀ member, Resolves policy env d.Mentions (resolve member)) (member : Text)
    (position : Position) :
    d.declaration.expand resolve member position = pure (d.kind policy env position) := by
  obtain ⟨name, fields | target⟩ := d
  · simp only [Declaration.expand, Decl.declaration, mapM_compile h hresolve, pure_bind, kind]
  · exact compile_target h (hresolve member) position

end Decl.WellFormed

/-! ## Names -/

namespace Declaration

variable {ds : List Decl} {options : Options} {d : Decl}

theorem find?_declaration (h : Decls.WellFormed ds) (hd : d ∈ ds) :
    find? (ds.map (·.declaration)) d.name = some d.declaration := by
  rw [find?, List.find?_map]
  exact congrArg (Option.map Decl.declaration) (Decls.find?_of_mem h.names hd)

/-- To read a declaration it is enough to read the names in it. -/
theorem resolves_of_refers (h : Decls.WellFormed ds) (hd : d ∈ ds) {stack : List Text}
    (hnames : ∀ e ∈ ds, Decls.Refers ds d.name e.name → ∀ member position,
      resolve (ds.map (·.declaration)) options stack member position e.name =
        pure (env position e.name)) (member : Text) :
    Resolves options.arrayPrimitives env d.Mentions
      (resolve (ds.map (·.declaration)) options stack member) where
  primitive position p := resolve_primitive (Primitive.ofName?_name p)
  name n hn position := by
    have href : Decls.Refers ds d.name n := ⟨d, hd, rfl, hn⟩
    obtain ⟨e, he, rfl⟩ := h.declared _ _ href
    exact hnames e he href member position

/-- A declared name stands for its meaning wherever it is read. Every name on the stack leads to
it, so that it is not on the stack itself. -/
theorem resolve_print (h : Decls.WellFormed ds)
    (henv : Decls.IsMeaning options.arrayPrimitives env ds) (hd : d ∈ ds) {stack : List Text}
    (hstack : ∀ x ∈ stack, Relation.TransGen (Decls.Refers ds) x d.name) (member : Text)
    (position : Position) :
    resolve (ds.map (·.declaration)) options stack member position d.name =
      pure (env position d.name) := by
  induction hname : d.name using h.wellFounded.induction generalizing d stack member position with
  | h name ih =>
    subst hname
    have hnew : d.name ∉ stack := fun hmem => h.acyclic d.name (hstack d.name hmem)
    have hresolve : ∀ member, Resolves options.arrayPrimitives env d.Mentions
        (resolve (ds.map (·.declaration)) options (stack ++ [d.name]) member) := by
      refine resolves_of_refers h hd fun e he href member position => ?_
      refine ih e.name href he ?_ member position rfl
      intro x hx
      rcases List.mem_append.1 hx with hx | hx
      · exact (hstack x hx).tail href
      · obtain rfl := List.mem_singleton.1 hx
        exact .single href
    rw [resolve_declared (h.decl d hd).name.declarable (find?_declaration h hd) hnew,
      (h.decl d hd).expand_declaration hresolve, henv d hd position]

/-! ## The whole way -/

theorem compile_print (h : Decls.WellFormed ds)
    (henv : Decls.IsMeaning options.arrayPrimitives env ds) (hd : d ∈ ds) :
    compile (ds.map (·.declaration)) options d.name =
      pure (d.schemas options.arrayPrimitives env) := by
  have hresolve : ∀ member, Resolves options.arrayPrimitives env d.Mentions
      (resolve (ds.map (·.declaration)) options [d.name] member) := by
    refine resolves_of_refers h hd fun e he href member position => ?_
    refine resolve_print h henv he ?_ member position
    intro x hx
    obtain rfl := List.mem_singleton.1 hx
    exact .single href
  have hfind := find?_declaration h hd
  have hwell := h.decl d hd
  obtain ⟨name, fields | target⟩ := d
  · simp only [compile, hfind]
    exact hwell.mapM_compile hresolve
  · have hkind := hwell.compile_target (hresolve []) .field
    have hmember : Member.compile (resolve (ds.map (·.declaration)) options [name] [])
        ⟨[], false, target.print, none, target.shape⟩ =
        pure (.anonymous (target.kind options.arrayPrimitives env .field)) := by
      rw [Member.compile, hkind, pure_bind]
      rfl
    simp only [compile, hfind]
    exact (congrArg (· >>= fun schema => pure [schema]) hmember).trans (pure_bind _ _)

/-- Well-formed declarations have a meaning, and from their text, however it is laid out, each of
them is compiled to just the schemas that it means, without a warning. -/
theorem compileText_print {ds : List Decl} (h : Decls.WellFormed ds) (l : Layout)
    (options : Options) :
    (∃ env, Decls.IsMeaning options.arrayPrimitives env ds) ∧
      ∀ env, Decls.IsMeaning options.arrayPrimitives env ds → ∀ d ∈ ds,
        compileText options d.name (Decls.print l ds) =
          pure (d.schemas options.arrayPrimitives env) := by
  refine ⟨h.exists_isMeaning options.arrayPrimitives, fun env henv d hd => ?_⟩
  rw [compileText, ofText_print h.decl h.names (List.ne_nil_of_mem hd) l options, pure_bind]
  exact compile_print h henv hd

/-! ## An example -/

/-- A block and the alias it refers to, with separators in literals and in a comment. -/
def messages : List Decl :=
  [⟨"Message".toList, .block [
      ⟨"id".toList, false, .primitive .number, .before "unique".toList⟩,
      ⟨"to".toList, true,
        .array (.union [.name "Role".toList, .literals ["a | b".toList, "c: d".toList]]),
        .after "one // more".toList⟩]⟩,
    ⟨"Role".toList, .alias (.literals ["user".toList, "bot".toList])⟩]

def messagesText : Text :=
  "interface Message \x7b\n".toList ++
    "  /** unique */\n".toList ++
    "  id: number;\n".toList ++
    "  to?: (Role | (\"a | b\" | \"c: d\"))[]; // one // more\n".toList ++
    "\x7d\n\n".toList ++
    "type Role = \"user\" | \"bot\"\n".toList

theorem refers_messages {a b : Text} (h : Decls.Refers messages a b) :
    a = "Message".toList ∧ b = "Role".toList := by
  obtain ⟨d, hd, rfl, t, ht, hmention⟩ := h
  rcases List.mem_cons.1 hd with rfl | hd
  · rcases List.mem_cons.1 ht with rfl | ht
    · cases hmention
    · obtain rfl := List.mem_singleton.1 ht
      cases hmention with
      | item h =>
        cases h with
        | alternative hmem h =>
          rcases List.mem_cons.1 hmem with rfl | hmem
          · cases h
            exact ⟨rfl, rfl⟩
          · obtain rfl := List.mem_singleton.1 hmem
            cases h
  · obtain rfl := List.mem_singleton.1 hd
    obtain rfl := List.mem_singleton.1 ht
    cases hmention

theorem wellFormed_message {d : Decl} (hd : d ∈ messages) : d.WellFormed := by
  have hliterals : ∀ values : List Text, values ≠ [] → (∀ v ∈ values, Text.trim v = v) →
      (∀ v ∈ values, v.all isLiteralChar = true) → (TypeExpr.literals values).WellFormed := by
    intro values hne htrim hchars
    exact .literals hne fun v hv => ⟨htrim v hv, hchars v hv⟩
  rcases List.mem_cons.1 hd with rfl | hd
  · refine ⟨⟨⟨by decide, by decide⟩, by decide⟩, ?_⟩
    intro f hf
    rcases List.mem_cons.1 hf with rfl | hf
    · exact ⟨⟨by decide, by decide⟩, .primitive .number, ⟨by decide, by decide, by decide⟩,
        by decide, by decide⟩
    · obtain rfl := List.mem_singleton.1 hf
      have hunion : (TypeExpr.union [.name "Role".toList,
          .literals ["a | b".toList, "c: d".toList]]).WellFormed := by
        refine .union (by decide) ⟨_, List.mem_cons_self, rfl⟩ ?_
        intro t ht
        rcases List.mem_cons.1 ht with rfl | ht
        · exact .name ⟨⟨by decide, by decide⟩, by decide⟩
        · obtain rfl := List.mem_singleton.1 ht
          exact hliterals _ (by decide) (by decide) (by decide)
      exact ⟨⟨by decide, by decide⟩, .array hunion, ⟨by decide, by decide, by decide⟩,
        by decide, by decide⟩
  · obtain rfl := List.mem_singleton.1 hd
    exact ⟨⟨⟨by decide, by decide⟩, by decide⟩, hliterals _ (by decide) (by decide) (by decide)⟩

theorem wellFormed_messages : Decls.WellFormed messages where
  decl _ hd := wellFormed_message hd
  names := by decide
  declared a b h := by
    obtain ⟨_, rfl⟩ := refers_messages h
    exact ⟨_, List.mem_cons_of_mem _ List.mem_cons_self, rfl⟩
  acyclic a h := by
    have hends : ∀ {a b}, Relation.TransGen (Decls.Refers messages) a b →
        a = "Message".toList ∧ b = "Role".toList := by
      intro a b h
      induction h with
      | single h => exact refers_messages h
      | tail _ h ih => exact ⟨ih.1, (refers_messages h).2⟩
    obtain ⟨rfl, hb⟩ := hends h
    exact absurd hb (by decide)

set_option maxRecDepth 4000 in
theorem compileText_messages :
    Decls.WellFormed messages ∧
    Decls.print ⟨2, true, false, 1, 1⟩ messages = messagesText ∧
    compileText .strict "Message".toList messagesText =
      pure [⟨"id".toList, false, some "unique".toList, .number⟩,
        ⟨"to".toList, true, some "one // more".toList, .array (.anonymous (.union
          [.anonymous (.enum ["user".toList, "bot".toList]),
            .anonymous (.enum ["a | b".toList, "c: d".toList])]))⟩] := by
  have hprint : Decls.print ⟨2, true, false, 1, 1⟩ messages = messagesText := by
    with_unfolding_all rfl
  obtain ⟨⟨env, henv⟩, hall⟩ :=
    compileText_print wellFormed_messages ⟨2, true, false, 1, 1⟩ .strict
  have hrole : env .unionBranch "Role".toList = .enum ["user".toList, "bot".toList] :=
    henv _ (List.mem_cons_of_mem _ List.mem_cons_self) .unionBranch
  have h := hall env henv _ List.mem_cons_self
  rw [hprint] at h
  refine ⟨wellFormed_messages, hprint, h.trans (congrArg pure ?_)⟩
  simp only [Decl.schemas, List.map_cons, List.map_nil, FieldDecl.schema, Note.text?,
    TypeExpr.kind, TypeExpr.kinds, hrole]
  rfl

end Declaration

end

end InterfaceForms

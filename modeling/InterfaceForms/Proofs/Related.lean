import InterfaceForms.Proofs.References

/-!
# Two runs of the compiler

Two runs over the same declarations are compared from the inside out. A lifting says when two
logged results are related, given when their values are. If it fits together with sequences, then
what relates the names of a type relates the type, the declaration it stands in, and the root.

* `TypeTree.compile_related`, `Declaration.expand_related`: a type and a declaration, with the
  meaning of names given.
* `Declaration.resolve_related`, `Declaration.compile_related`: two runs under different options.
-/

namespace InterfaceForms

/-! ## Relations between logged results -/

/-- Both results are values, related by `r`, or both are the same failure. -/
inductive Logged.Agree {α β : Type} (r : α → β → Prop) :
    Except ParseError α → Except ParseError β → Prop
  | ok {a : α} {b : β} : r a b → Agree r (.ok a) (.ok b)
  | error {e : ParseError} : Agree r (.error e) (.error e)

theorem Logged.Agree.imp {α β : Type} {r q : α → β → Prop} {x : Except ParseError α}
    {y : Except ParseError β} (h : Agree r x y) (hrq : ∀ a b, r a b → q a b) : Agree q x y := by
  cases h with
  | ok hab => exact .ok (hrq _ _ hab)
  | error => exact .error

theorem Logged.Agree.eq_map {α β : Type} {r : α → β → Prop} {f : α → β}
    {x : Except ParseError α} {y : Except ParseError β} (h : Agree r x y)
    (hr : ∀ a b, r a b → b = f a) : y = x.map f := by
  cases h with
  | ok hab => rw [hr _ _ hab, Except.map]
  | error => rfl

theorem Logged.Agree.mapM {α β γ δ : Type} {p : α → β → Prop} {r : γ → δ → Prop}
    {f : α → Except ParseError γ} {g : β → Except ParseError δ} {l : List α} {l' : List β}
    (h : List.Forall₂ p l l') (hfg : ∀ a b, p a b → Agree r (f a) (g b)) :
    Agree (List.Forall₂ r) (l.mapM f) (l'.mapM g) := by
  induction h with
  | nil => exact .ok .nil
  | @cons a b l l' hab _ ih =>
    rw [List.mapM_cons, List.mapM_cons]
    have hhead := hfg a b hab
    generalize f a = x, g b = y at hhead
    generalize l.mapM f = xs, l'.mapM g = ys at ih
    cases hhead with
    | error => exact .error
    | ok hcd =>
      cases ih with
      | error => exact .error
      | ok hrest => exact .ok (.cons hcd hrest)

/-- When two logged results are related, given the relation between their values. -/
structure Lifting where
  Rel : {α β : Type} → (α → β → Prop) → Logged α → Logged β → Prop
  pure : ∀ {α β : Type} {r : α → β → Prop} {a : α} {b : β}, r a b →
    Rel r (Pure.pure a) (Pure.pure b)
  fail : ∀ {α β : Type} {r : α → β → Prop} (e : ParseError), Rel r (Logged.fail e) (Logged.fail e)
  bind : ∀ {α β γ δ : Type} {r : α → β → Prop} {q : γ → δ → Prop} {x : Logged α} {y : Logged β}
    {f : α → Logged γ} {g : β → Logged δ}, Rel r x y → (∀ a b, r a b → Rel q (f a) (g b)) →
    Rel q (x >>= f) (y >>= g)

namespace Lifting

variable (L : Lifting) {α β γ δ : Type} {r : α → β → Prop}

/-- Values that are only wrapped. -/
theorem bind_pure {q : γ → δ → Prop} {x : Logged α} {y : Logged β} {f : α → γ} {g : β → δ}
    (h : L.Rel r x y) (hfg : ∀ a b, r a b → q (f a) (g b)) :
    L.Rel q (x >>= fun a => Pure.pure (f a)) (y >>= fun b => Pure.pure (g b)) :=
  L.bind h fun a b hab => L.pure (hfg a b hab)

theorem mapM {f : γ → Logged α} {g : γ → Logged β} {l : List γ}
    (h : ∀ c ∈ l, L.Rel r (f c) (g c)) : L.Rel (List.Forall₂ r) (l.mapM f) (l.mapM g) := by
  induction l with
  | nil => exact L.pure .nil
  | cons c l ih =>
    rw [List.mapM_cons, List.mapM_cons]
    refine L.bind (h c List.mem_cons_self) fun a b hab => ?_
    refine L.bind_pure (ih fun x hx => h x (List.mem_cons_of_mem c hx)) ?_
    intro as bs hs
    exact .cons hab hs

end Lifting

/-! ## Relations between kinds -/

/-- The two schemas differ in their kinds only, and these are related as those of fields. -/
def Schema.Alike (K : Position → Kind → Kind → Prop) (s s' : Schema) : Prop :=
  ∃ k, K .field s.kind k ∧ s' = { s with kind := k }

/-- What is built of related kinds is related, at every position. -/
structure Kind.Congruent (K : Position → Kind → Kind → Prop) : Prop where
  enum : ∀ p values, K p (.enum values) (.enum values)
  union : ∀ p {ks ks' : List Kind}, List.Forall₂ (K .unionBranch) ks ks' →
    K p (.union (ks.map .anonymous)) (.union (ks'.map .anonymous))
  object : ∀ p {fields fields' : List Schema}, List.Forall₂ (Schema.Alike K) fields fields' →
    K p (.object fields) (.object fields')
  array : ∀ p {k k' : Kind}, K .arrayItem k k' →
    K p (.array (.anonymous k)) (.array (.anonymous k'))
  record : ∀ p {k k' : Kind}, K .recordValue k k' →
    K p (.record (.anonymous k)) (.record (.anonymous k'))

theorem Schema.eq_of_alike {s s' : Schema} (h : Alike (fun _ => Eq) s s') : s = s' := by
  obtain ⟨_, rfl, rfl⟩ := h
  cases s
  rfl

theorem Schema.eq_of_forall₂_alike {l l' : List Schema}
    (h : List.Forall₂ (Alike fun _ => Eq) l l') : l = l' := by
  have heq : List.Forall₂ Eq l l' := h.imp fun _ _ => eq_of_alike
  rwa [List.forall₂_eq_eq_eq] at heq

theorem Kind.congruent_eq : Congruent fun _ => Eq where
  enum _ _ := rfl
  union _ _ _ h := by
    rw [List.forall₂_eq_eq_eq] at h
    rw [h]
  object _ _ _ h := by rw [Schema.eq_of_forall₂_alike h]
  array _ _ _ h := by rw [h]
  record _ _ _ h := by rw [h]

/-! ## From the names to the root -/

section Runs

variable {L : Lifting} {K : Position → Kind → Kind → Prop}

theorem TypeTree.compile_related (hK : Kind.Congruent K)
    {resolve resolve' : Position → Text → Logged Kind}
    (h : ∀ p name, L.Rel (K p) (resolve p name) (resolve' p name)) (t : TypeTree)
    (position : Position) :
    L.Rel (K position) (t.compile resolve position) (t.compile resolve' position) := by
  induction t generalizing position with
  | literals values => exact L.pure (hK.enum position values)
  | union branches ih =>
    simp only [compile, compileBranches_eq]
    exact L.bind_pure (L.mapM fun b hb => ih b hb .unionBranch) fun _ _ => hK.union position
  | record v ih =>
    simp only [compile]
    exact L.bind_pure (ih .recordValue) fun _ _ => hK.record position
  | array v ih =>
    simp only [compile]
    exact L.bind_pure (ih .arrayItem) fun _ _ => hK.array position
  | named name => exact h position name
  | malformed cause => exact L.fail cause

theorem Member.compile_related (hK : Kind.Congruent K)
    {resolve resolve' : Position → Text → Logged Kind}
    (h : ∀ p name, L.Rel (K p) (resolve p name) (resolve' p name)) (m : Member) :
    L.Rel (Schema.Alike K) (m.compile resolve) (m.compile resolve') := by
  unfold compile
  refine L.bind_pure (TypeTree.compile_related hK h m.shape.tree .field) ?_
  intro k k' hk
  exact ⟨k', hk, rfl⟩

namespace Declaration

/-- The members of a block are read for themselves, the target of an alias for the member that its
name stands in. -/
theorem expand_related (hK : Kind.Congruent K) {d : Declaration}
    {resolve resolve' : Text → Position → Text → Logged Kind} {member member' : Text}
    (hblock : ∀ m p name, L.Rel (K p) (resolve m p name) (resolve' m p name))
    (halias : ∀ p name, L.Rel (K p) (resolve member p name) (resolve' member' p name))
    (position : Position) :
    L.Rel (K position) (d.expand resolve member position)
      (d.expand resolve' member' position) := by
  obtain ⟨_, members | target⟩ := d
  · refine L.bind_pure (L.mapM fun m _ => m.compile_related hK (hblock m.name)) ?_
    intro fields fields' hfields
    exact hK.object position hfields
  · exact TypeTree.compile_related hK halias target.shape.tree position

variable {declarations : List Declaration} {options options' : Options}

/-- Two runs are related if they are at the primitive types and at the names that nothing
declares. -/
theorem resolve_related (hK : Kind.Congruent K)
    (hprim : ∀ q (p : Primitive),
      K q (p.compile options.arrayPrimitives q) (p.compile options'.arrayPrimitives q))
    (hunknown : ∀ context q name, L.Rel (K q) (unknownType options.unknownTypes context q name)
      (unknownType options'.unknownTypes context q name))
    (stack : List Text) (member : Text) (position : Position) (name : Text) :
    L.Rel (K position) (resolve declarations options stack member position name)
      (resolve declarations options' stack member position name) := by
  induction stack, name using resolve_ind declarations generalizing member position with
  | primitive stack name p hname =>
    rw [resolve_primitive hname, resolve_primitive hname]
    exact L.pure (hprim position p)
  | undeclared stack name hname hfind =>
    rw [resolve_undeclared hname hfind, resolve_undeclared hname hfind]
    exact hunknown _ position name
  | cyclic stack name d hname hfind hstack =>
    rw [resolve_cyclic hname hfind hstack, resolve_cyclic hname hfind hstack]
    exact L.fail _
  | declared stack name d hname hfind hstack ih =>
    rw [resolve_declared hname hfind hstack, resolve_declared hname hfind hstack]
    have hinner : ∀ m p other, L.Rel (K p)
        (resolve declarations options (stack ++ [name]) m p other)
        (resolve declarations options' (stack ++ [name]) m p other) :=
      fun m p other => ih other m p
    exact expand_related hK hinner (hinner member) position

theorem compile_related (hK : Kind.Congruent K)
    (hprim : ∀ q (p : Primitive),
      K q (p.compile options.arrayPrimitives q) (p.compile options'.arrayPrimitives q))
    (hunknown : ∀ context q name, L.Rel (K q) (unknownType options.unknownTypes context q name)
      (unknownType options'.unknownTypes context q name)) (root : Text) :
    L.Rel (List.Forall₂ (Schema.Alike K)) (compile declarations options root)
      (compile declarations options' root) := by
  unfold compile
  cases find? declarations root with
  | none => exact L.fail _
  | some d =>
    have hres : ∀ m p other, L.Rel (K p) (resolve declarations options [root] m p other)
        (resolve declarations options' [root] m p other) :=
      resolve_related hK hprim hunknown [root]
    obtain ⟨_, members | target⟩ := d
    · exact L.mapM fun m _ => m.compile_related hK (hres m.name)
    · refine L.bind_pure (target.compile_related hK (hres target.name)) ?_
      intro s s' hs
      exact .cons hs .nil

end Declaration

end Runs

end InterfaceForms

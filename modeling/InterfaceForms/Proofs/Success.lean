import InterfaceForms.Proofs.References

/-!
# Which roots compile

A root compiles exactly when it is declared and every declaration that it reaches is sound: it lies
on no cycle, all its types are readable and, where unknown types are refused, all names in it are
known. How often a declaration is used plays no part.

* `Declaration.compile_succeeds_iff`: the condition is sufficient and necessary.

In both directions the induction is on the number of declarations that are not being expanded. What
carries it is where the stack stands in the graph: a name that resolves reaches nothing on the
stack, and a name that the whole stack reaches is on it only if it lies on a cycle.
-/

namespace InterfaceForms

/-- Nothing in the declaration of `name` keeps what refers to it from compiling. -/
structure Sound (declarations : List Declaration) (options : Options) (name : Text) : Prop where
  acyclic : ¬ OnCycle declarations name
  readable : ∀ d, Declaration.find? declarations name = some d → d.Readable
  known : options.unknownTypes = .reject → ∀ d, Declaration.find? declarations name = some d →
    ∀ other, d.Mentions other → Declared declarations other

namespace Declaration

variable {declarations : List Declaration} {options : Options} {stack : List Text}
  {member : Text} {position : Position} {name : Text}

theorem declared_or_tolerated
    (h : (resolve declarations options stack member position name).Succeeds)
    (hprim : Primitive.ofName? name = none) :
    Declared declarations name ∨ options.unknownTypes = .asString := by
  cases hfind : find? declarations name with
  | some d => exact .inl ⟨d, hfind⟩
  | none =>
    right
    rw [resolve_undeclared hprim hfind] at h
    cases hpolicy : options.unknownTypes with
    | asString => rfl
    | reject =>
      rw [hpolicy] at h
      exact absurd h (Logged.not_succeeds_fail _)

theorem resolve_undeclared_succeeds (hprim : Primitive.ofName? name = none)
    (hfind : find? declarations name = none) (hpolicy : options.unknownTypes ≠ .reject) :
    (resolve declarations options stack member position name).Succeeds := by
  rw [resolve_undeclared hprim hfind]
  cases h : options.unknownTypes with
  | asString => exact ⟨_, rfl⟩
  | reject => exact absurd h hpolicy

theorem not_mem_stack_of_succeeds {d : Declaration}
    (h : (resolve declarations options stack member position name).Succeeds)
    (hprim : Primitive.ofName? name = none) (hfind : find? declarations name = some d) :
    name ∉ stack := by
  intro hstack
  rw [resolve_cyclic hprim hfind hstack] at h
  exact Logged.not_succeeds_fail _ h

/-! ## What compiles is sound -/

/-- The step of the induction, for the root and for every declaration below it. -/
theorem sound_of_readings {d : Declaration} (hfind : find? declarations name = some d)
    (h : ∀ r ∈ d.readings member position,
      (r.compile (resolve declarations options (stack ++ [name]))).Succeeds)
    (ih : ∀ other m q, Primitive.ofName? other = none → Declared declarations other →
      (resolve declarations options (stack ++ [name]) m q other).Succeeds →
      ∀ x, Reaches declarations other x → x ∉ stack ++ [name] ∧ Sound declarations options x)
    (hname : name ∉ stack) :
    ∀ x, Reaches declarations name x → x ∉ stack ∧ Sound declarations options x := by
  have below : ∀ other x, RefersTo declarations name other → Reaches declarations other x →
      x ∉ stack ++ [name] ∧ Sound declarations options x := by
    rintro other x ⟨d', hd', hmention, hdecl⟩ hreach
    obtain rfl := Option.some.inj (hfind.symm.trans hd')
    obtain ⟨m, q, hres⟩ := resolves_of_succeeds h hmention
    obtain ⟨_, _, hprim, _⟩ := hmention
    exact ih other m q hprim hdecl hres x hreach
  intro x hreach
  rcases Relation.ReflTransGen.cases_head hreach with rfl | ⟨other, href, hreach⟩
  · refine ⟨hname, ?_, ?_, ?_⟩
    · intro hcycle
      obtain ⟨other, href, hback⟩ := Relation.TransGen.head'_iff.1 hcycle
      exact (below other name href hback).1 (List.mem_append_right _ (List.mem_singleton_self _))
    · intro d' hd'
      obtain rfl := Option.some.inj (hfind.symm.trans hd')
      exact readable_of_succeeds h
    · intro hpolicy d' hd' other hmention
      obtain rfl := Option.some.inj (hfind.symm.trans hd')
      obtain ⟨m, q, hres⟩ := resolves_of_succeeds h hmention
      obtain ⟨_, _, hprim, _⟩ := hmention
      rcases declared_or_tolerated hres hprim with hdecl | htolerated
      · exact hdecl
      · rw [hpolicy] at htolerated
        cases htolerated
  · obtain ⟨hstack, hsound⟩ := below other x href hreach
    exact ⟨fun hx => hstack (List.mem_append_left _ hx), hsound⟩

theorem sound_of_resolve (hprim : Primitive.ofName? name = none)
    (hdecl : Declared declarations name)
    (h : (resolve declarations options stack member position name).Succeeds) :
    ∀ x, Reaches declarations name x → x ∉ stack ∧ Sound declarations options x := by
  induction stack, name using resolve_ind declarations generalizing member position with
  | primitive stack name p hname =>
    rw [hname] at hprim
    cases hprim
  | undeclared stack name _ hnone =>
    obtain ⟨d, hfind⟩ := hdecl
    rw [hnone] at hfind
    cases hfind
  | cyclic stack name d _ hfind hstack =>
    exact absurd hstack (not_mem_stack_of_succeeds h hprim hfind)
  | declared stack name d _ hfind hstack ih =>
    rw [resolve_declared hprim hfind hstack, expand_succeeds] at h
    refine sound_of_readings hfind h ?_ hstack
    intro other m q hprim' hdecl' hres
    exact ih other hprim' hdecl' hres

/-! ## What is sound compiles -/

theorem readings_succeed {d : Declaration} (hfind : find? declarations name = some d)
    (hsound : Sound declarations options name)
    (ih : ∀ other, Primitive.ofName? other = none → RefersTo declarations name other →
      ∀ m q, (resolve declarations options stack m q other).Succeeds) :
    ∀ r ∈ d.readings member position,
      (r.compile (resolve declarations options stack)).Succeeds := by
  refine succeeds_of_resolves (hsound.readable d hfind) ?_
  intro other hmention m q
  obtain ⟨_, _, hprim, _⟩ := id hmention
  cases hother : find? declarations other with
  | some e => exact ih other hprim ⟨d, hfind, hmention, e, hother⟩ m q
  | none =>
    refine resolve_undeclared_succeeds hprim hother fun hpolicy => ?_
    obtain ⟨e, he⟩ := hsound.known hpolicy d hfind other hmention
    rw [hother] at he
    cases he

theorem resolve_of_sound (hprim : Primitive.ofName? name = none)
    (hdecl : Declared declarations name)
    (hstack : ∀ x ∈ stack, Relation.TransGen (RefersTo declarations) x name)
    (hsound : ∀ x, Reaches declarations name x → Sound declarations options x) :
    (resolve declarations options stack member position name).Succeeds := by
  induction stack, name using resolve_ind declarations generalizing member position with
  | primitive stack name p hname =>
    rw [hname] at hprim
    cases hprim
  | undeclared stack name _ hnone =>
    obtain ⟨d, hfind⟩ := hdecl
    rw [hnone] at hfind
    cases hfind
  | cyclic stack name d _ _ hmem =>
    exact absurd (hstack name hmem) (hsound name .refl).acyclic
  | declared stack name d _ hfind hname ih =>
    rw [resolve_declared hprim hfind hname, expand_succeeds]
    refine readings_succeed hfind (hsound name .refl) ?_
    intro other hprim' href m q
    have hdecl' : Declared declarations other := href.choose_spec.2.2
    refine ih other hprim' hdecl' ?_ fun x hx => hsound x (.head href hx)
    intro x hx
    rcases List.mem_append.1 hx with hx | hx
    · exact (hstack x hx).tail href
    · obtain rfl := List.mem_singleton.1 hx
      exact .single href

/-! ## The root -/

/-- A root compiles exactly when it is declared and reaches sound declarations only. -/
theorem compile_succeeds_iff (declarations : List Declaration) (options : Options) (root : Text) :
    (compile declarations options root).Succeeds ↔ Declared declarations root ∧
      ∀ name, Reaches declarations root name → Sound declarations options name := by
  cases hfind : find? declarations root with
  | none =>
    rw [compile_undeclared hfind]
    constructor
    · intro h
      exact absurd h (Logged.not_succeeds_fail _)
    · rintro ⟨⟨d, hd⟩, _⟩
      rw [hfind] at hd
      cases hd
  | some d =>
    rw [compile_succeeds hfind]
    constructor
    · intro h
      refine ⟨⟨d, hfind⟩, fun name hreach => ?_⟩
      have hread : ∀ r ∈ d.readings d.ownMember .field,
          (r.compile (resolve declarations options ([] ++ [root]))).Succeeds := h
      refine (sound_of_readings hfind hread ?_ List.not_mem_nil name hreach).2
      intro other m q hprim hdecl hres
      exact sound_of_resolve hprim hdecl hres
    · rintro ⟨_, hsound⟩
      refine readings_succeed hfind (hsound root .refl) ?_
      intro other hprim href m q
      refine resolve_of_sound hprim href.choose_spec.2.2 ?_ fun x hx => hsound x (.head href hx)
      intro x hx
      obtain rfl := List.mem_singleton.1 hx
      exact .single href

end Declaration

end InterfaceForms

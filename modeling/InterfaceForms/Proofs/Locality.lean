import InterfaceForms.Proofs.References
import Mathlib.Data.List.Nodup

/-!
# What a root depends on

A compilation looks up the names that it meets: the root, and what stands in the declarations that
the root reaches. Two maps of declarations that agree on these names are the same to it, whatever
else they hold and in whatever order.

* `TypeTree.compile_congr`, `Declaration.expand_congr`: a type and a declaration depend on the names
  in them.
* `Declaration.compile_congr`: a root depends on the names that it meets.
* `Declaration.compile_local`: order and unrelated declarations make no difference.
-/

namespace InterfaceForms

/-! ## Names in a type -/

theorem TypeTree.compile_congr {resolve resolve' : Position → Text → Logged Kind} {t : TypeTree}
    {p : Position} (h : ∀ q name, Part p t q (.named name) → resolve q name = resolve' q name) :
    t.compile resolve p = t.compile resolve' p := by
  induction t generalizing p with
  | literals values => simp only [compile]
  | union branches ih =>
    have hbranches : ∀ b ∈ branches,
        b.compile resolve .unionBranch = b.compile resolve' .unionBranch :=
      fun b hb => ih b hb fun q name hpart => h q name (.branch hb hpart)
    simp only [compile, compileBranches_eq, mapM_congr_of_mem hbranches]
  | record v ih => simp only [compile, ih fun q name hpart => h q name (.value hpart)]
  | array v ih => simp only [compile, ih fun q name hpart => h q name (.item hpart)]
  | named name => exact h p name .self
  | malformed cause => simp only [compile]

namespace Declaration

theorem expand_congr {d : Declaration} {resolve resolve' : Text → Position → Text → Logged Kind}
    {member : Text} {position : Position}
    (h : ∀ r ∈ d.readings member position, r.compile resolve = r.compile resolve') :
    d.expand resolve member position = d.expand resolve' member position := by
  obtain ⟨_, members | target⟩ := d
  · have hmembers : ∀ m ∈ members, m.compile (resolve m.name) = m.compile (resolve' m.name) := by
      intro m hm
      have hread := h _ (List.mem_map_of_mem hm)
      simp only [Reading.compile] at hread
      simp only [Member.compile, hread]
    simp only [expand, mapM_congr_of_mem hmembers]
  · exact h _ (List.mem_singleton_self _)

/-! ## The names that a root meets -/

/-- The root is met, and so is every name in a declaration that the root reaches, be it declared or
not. -/
inductive Meets (declarations : List Declaration) (root : Text) : Text → Prop
  | root : Meets declarations root root
  | mention {a b : Text} {d : Declaration} (hreach : Reaches declarations root a)
    (hfind : find? declarations a = some d) (hmention : d.Mentions b) : Meets declarations root b

variable {declarations declarations' : List Declaration} {options : Options}

/-- What is met from a name in a declaration is met from the declaration. -/
theorem Meets.of_mention {a b x : Text} {d : Declaration} (hfind : find? declarations a = some d)
    (hmention : d.Mentions b) (h : Meets declarations b x) : Meets declarations a x := by
  cases h with
  | root => exact .mention .refl hfind hmention
  | @mention c _ e hreach he hx =>
    have hdecl : Declared declarations b := by
      rcases Relation.ReflTransGen.cases_head hreach with rfl | ⟨_, ⟨d', hd', _⟩, _⟩
      · exact ⟨e, he⟩
      · exact ⟨d', hd'⟩
    exact .mention (.head ⟨d, hfind, hmention, hdecl⟩ hreach) he hx

/-- The readings of a declaration depend on what its names resolve to. -/
theorem readings_congr {d : Declaration} {member : Text} {position : Position}
    {stack : List Text} (h : ∀ name, d.Mentions name → ∀ m q,
      resolve declarations options stack m q name = resolve declarations' options stack m q name) :
    ∀ r ∈ d.readings member position, r.compile (resolve declarations options stack) =
      r.compile (resolve declarations' options stack) := by
  intro r hr
  refine TypeTree.compile_congr fun q name hpart => ?_
  cases hprim : Primitive.ofName? name with
  | some p => rw [resolve_primitive hprim, resolve_primitive hprim]
  | none => exact h name (mentions_of_part hr hpart hprim) r.member q

theorem resolve_congr {stack : List Text} {member : Text} {position : Position} {name : Text}
    (h : ∀ x, Meets declarations name x → find? declarations x = find? declarations' x) :
    resolve declarations options stack member position name =
      resolve declarations' options stack member position name := by
  have hsame := h name .root
  induction stack, name using resolve_ind declarations generalizing member position with
  | primitive stack name p hprim => rw [resolve_primitive hprim, resolve_primitive hprim]
  | undeclared stack name hprim hfind =>
    rw [resolve_undeclared hprim hfind, resolve_undeclared hprim (hsame ▸ hfind)]
  | cyclic stack name d hprim hfind hstack =>
    rw [resolve_cyclic hprim hfind hstack, resolve_cyclic hprim (hsame ▸ hfind) hstack]
  | declared stack name d hprim hfind hstack ih =>
    rw [resolve_declared hprim hfind hstack, resolve_declared hprim (hsame ▸ hfind) hstack]
    refine expand_congr (readings_congr fun other hother m q => ?_)
    have hinside : ∀ x, Meets declarations other x → find? declarations x = find? declarations' x :=
      fun x hx => h x (hx.of_mention hfind hother)
    exact ih other hinside (hinside other .root)

/-- A root compiles to the same, with the same warnings, where the names that it meets are declared
alike. -/
theorem compile_congr {root : Text}
    (h : ∀ name, Meets declarations root name →
      find? declarations name = find? declarations' name) :
    compile declarations options root = compile declarations' options root := by
  have hsame := h root .root
  cases hfind : find? declarations root with
  | none => rw [compile_undeclared hfind, compile_undeclared (hsame ▸ hfind)]
  | some d =>
    have hread : ∀ r ∈ d.readings d.ownMember .field,
        r.compile (resolve declarations options [root]) =
          r.compile (resolve declarations' options [root]) := by
      refine readings_congr fun other hother m q => ?_
      exact resolve_congr fun x hx => h x (hx.of_mention hfind hother)
    rw [hfind] at hsame
    simp only [compile, hfind, ← hsame]
    obtain ⟨_, members | target⟩ := d
    · refine mapM_congr_of_mem fun m hm => ?_
      have hm' := hread _ (List.mem_map_of_mem hm)
      simp only [Reading.compile] at hm'
      simp only [Member.compile, hm']
    · have htarget := hread _ (List.mem_singleton_self _)
      simp only [Reading.compile, ownMember] at htarget
      simp only [Member.compile, htarget]

/-! ## Maps of declarations -/

theorem find?_eq_some_iff (hnames : (declarations.map (·.name)).Nodup) {name : Text}
    {d : Declaration} : find? declarations name = some d ↔ d ∈ declarations ∧ d.name = name := by
  constructor
  · intro h
    exact ⟨List.mem_of_find?_eq_some h, by simpa using List.find?_some h⟩
  · rintro ⟨hd, rfl⟩
    cases h : find? declarations d.name with
    | none =>
      have hne := List.find?_eq_none.1 h d hd
      simp at hne
    | some e =>
      have hname : e.name = d.name := by simpa using List.find?_some h
      rw [List.inj_on_of_nodup_map hnames (List.mem_of_find?_eq_some h) hd hname]

/-- Maps that hold the same declarations of a name give the same one for it. -/
theorem find?_eq_of_mem_iff (hnames : (declarations.map (·.name)).Nodup)
    (hnames' : (declarations'.map (·.name)).Nodup) {name : Text}
    (h : ∀ d : Declaration, d.name = name → (d ∈ declarations ↔ d ∈ declarations')) :
    find? declarations name = find? declarations' name := by
  refine Option.ext fun d => ?_
  rw [find?_eq_some_iff hnames, find?_eq_some_iff hnames']
  constructor
  · rintro ⟨hd, hname⟩
    exact ⟨(h d hname).1 hd, hname⟩
  · rintro ⟨hd, hname⟩
    exact ⟨(h d hname).2 hd, hname⟩

theorem compile_perm (hnames : (declarations.map (·.name)).Nodup)
    (h : declarations.Perm declarations') (root : Text) :
    compile declarations options root = compile declarations' options root := by
  have hnames' : (declarations'.map (·.name)).Nodup := (h.map _).nodup_iff.1 hnames
  exact compile_congr fun name _ => find?_eq_of_mem_iff hnames hnames' fun d _ => h.mem_iff

/-- A compilation depends only on the names that the root meets. So it is the same for two maps
that hold the same declarations of these names, whatever their order is and whatever others they
hold. -/
theorem compile_local (declarations declarations' : List Declaration) (options : Options)
    (root : Text) :
    ((∀ name, Meets declarations root name →
        find? declarations name = find? declarations' name) →
      compile declarations options root = compile declarations' options root) ∧
    ((declarations.map (·.name)).Nodup → (declarations'.map (·.name)).Nodup →
      (∀ d : Declaration, Meets declarations root d.name →
        (d ∈ declarations ↔ d ∈ declarations')) →
      compile declarations options root = compile declarations' options root) := by
  refine ⟨compile_congr, fun hnames hnames' h => compile_congr fun name hname => ?_⟩
  refine find?_eq_of_mem_iff hnames hnames' fun d hd => ?_
  subst hd
  exact h d hname

/-- What holds of the root and is handed on by the names in a declaration holds of all names that
the root meets. -/
theorem Meets.induction {root x : Text} {P : Text → Prop} (h : Meets declarations root x)
    (hroot : P root)
    (hstep : ∀ a d b, P a → find? declarations a = some d → d.Mentions b → P b) : P x := by
  cases h with
  | root => exact hroot
  | @mention a _ d hreach hfind hmention =>
    refine hstep a d x ?_ hfind hmention
    clear hfind hmention
    induction hreach with
    | refl => exact hroot
    | tail _ href ih =>
      obtain ⟨e, he, hb, _⟩ := href
      exact hstep _ e _ ih he hb

/-- A root, a declaration that it refers to, and one that it does not. -/
def library : List Declaration :=
  [⟨"Root".toList, .block [⟨"first".toList, false, "A[]".toList, none, .array "A".toList⟩]⟩,
    ⟨"A".toList, .block [⟨"x".toList, true, "Gone".toList, none, .named "Gone".toList⟩]⟩,
    ⟨"Other".toList, .alias ⟨[], false, "Root".toList, none, .named "Root".toList⟩⟩]

/-- The same in another order and with another unrelated declaration. -/
def shuffled : List Declaration :=
  [⟨"Other".toList, .block []⟩,
    ⟨"A".toList, .block [⟨"x".toList, true, "Gone".toList, none, .named "Gone".toList⟩]⟩,
    ⟨"Root".toList, .block [⟨"first".toList, false, "A[]".toList, none, .array "A".toList⟩]⟩]

theorem meets_library {x : Text} (h : Meets library "Root".toList x) :
    x ≠ "Other".toList := by
  have hmet : x = "Root".toList ∨ x = "A".toList ∨ x = "Gone".toList := by
    refine h.induction (P := fun x => x = "Root".toList ∨ x = "A".toList ∨ x = "Gone".toList)
      (.inl rfl) ?_
    rintro a d b (rfl | rfl | rfl) hfind ⟨t, ht, -, q, hpart⟩
    · obtain rfl := Option.some.inj hfind
      obtain rfl := List.mem_singleton.1 ht
      have htree : (Shape.array "A".toList).tree = .array (.named "A".toList) := by
        with_unfolding_all rfl
      dsimp only at hpart
      rw [htree] at hpart
      rcases hpart with _ | _ | _ | ⟨⟨⟩⟩
      exact .inr (.inl rfl)
    · obtain rfl := Option.some.inj hfind
      obtain rfl := List.mem_singleton.1 ht
      cases hpart
      exact .inr (.inr rfl)
    · cases hfind
  rcases hmet with rfl | rfl | rfl <;> decide

theorem compile_shuffled :
    (library.map (·.name)).Nodup ∧ (shuffled.map (·.name)).Nodup ∧
    (∀ d : Declaration, Meets library "Root".toList d.name → (d ∈ library ↔ d ∈ shuffled)) ∧
    compile library {} "Root".toList = compile shuffled {} "Root".toList := by
  have hnames : (library.map (·.name)).Nodup := by decide
  have hnames' : (shuffled.map (·.name)).Nodup := by decide
  have hmem : ∀ d : Declaration, Meets library "Root".toList d.name →
      (d ∈ library ↔ d ∈ shuffled) := by
    intro d hd
    have hne := meets_library hd
    simp only [library, shuffled, List.mem_cons, List.not_mem_nil, or_false]
    constructor
    · rintro (rfl | rfl | rfl)
      · exact .inr (.inr rfl)
      · exact .inr (.inl rfl)
      · exact absurd rfl hne
    · rintro (rfl | rfl | rfl)
      · exact absurd rfl hne
      · exact .inr (.inl rfl)
      · exact .inl rfl
  exact ⟨hnames, hnames', hmem,
    (compile_local library shuffled {} "Root".toList).2 hnames hnames' hmem⟩

end Declaration

end InterfaceForms

import InterfaceForms.Proofs.Related

/-!
# Policies as pairs of runs

A policy is described by what a run under it is, compared with the run under the other choice.

* `Declaration.compile_reject`: refusing unknown types changes nothing where nothing was tolerated,
  and fails for the first type that was tolerated otherwise.
* `Declaration.compile_asString`: making strings of the items of arrays is a map over the schemas,
  and changes neither failures nor warnings.
-/

namespace InterfaceForms

/-! ## What is tolerated and what is refused -/

/-- The failure refuses, in the same place, the type that the warning tolerates. -/
inductive Warning.RefusedAs : Warning → ParseError → Prop
  | unknownType {name : Text} {context : Context} {position : Position}
    (h : Text.startsWith '\x7b' name = false) :
    RefusedAs (.unknownType name context position) (.unknownType name context)
  | inlineObjectType {name : Text} {context : Context} {position : Position}
    (h : Text.startsWith '\x7b' name = true) :
    RefusedAs (.inlineObjectType context position) (.unknownType name context)

namespace Logged

/-- Both runs warn of the same types and end alike. -/
structure Parallel {α β : Type} (r : α → β → Prop) (x : Logged α) (y : Logged β) : Prop where
  warnings : x.warnings = y.warnings
  tolerated : ∀ w ∈ x.warnings, ∃ e, w.RefusedAs e
  outcome : Agree r x.result y.result

/-- `y` fails for the first type that `x` warns of, and ends like `x` if there is none. -/
structure Refuses {α β : Type} (r : α → β → Prop) (x : Logged α) (y : Logged β) : Prop where
  silent : y.warnings = []
  outcome : match x.warnings with
    | [] => Agree r x.result y.result
    | w :: _ => ∃ e, w.RefusedAs e ∧ y.result = .error e

variable {α β γ δ : Type} {r : α → β → Prop} {q : γ → δ → Prop} {x : Logged α} {y : Logged β}
  {f : α → Logged γ} {g : β → Logged δ}

theorem Parallel.bind (h : Parallel r x y) (hfg : ∀ a b, r a b → Parallel q (f a) (g b)) :
    Parallel q (x >>= f) (y >>= g) := by
  obtain ⟨ws, xr⟩ := x
  obtain ⟨_, yr⟩ := y
  obtain ⟨rfl, htol, hout⟩ := h
  cases hout with
  | error => exact ⟨rfl, htol, .error⟩
  | @ok a b hab =>
    obtain ⟨hws, htol', hout⟩ := hfg a b hab
    refine ⟨congrArg (ws ++ ·) hws, ?_, hout⟩
    intro w hw
    rcases List.mem_append.1 hw with hw | hw
    · exact htol w hw
    · exact htol' w hw

theorem Refuses.bind (h : Refuses r x y) (hfg : ∀ a b, r a b → Refuses q (f a) (g b)) :
    Refuses q (x >>= f) (y >>= g) := by
  obtain ⟨ws, xr⟩ := x
  obtain ⟨_, yr⟩ := y
  obtain ⟨rfl, hout⟩ := h
  cases ws with
  | nil =>
    -- Nothing was tolerated so far: both runs have failed, or they go on alike.
    cases hout with
    | error => exact ⟨rfl, .error⟩
    | ok hab => exact hfg _ _ hab
  | cons w ws =>
    -- `y` has failed already, whatever `x` goes on to do.
    obtain ⟨e, he, rfl⟩ := hout
    cases xr with
    | error e' => exact ⟨rfl, e, he, rfl⟩
    | ok a => exact ⟨rfl, e, he, rfl⟩

def parallel : Lifting where
  Rel := Parallel
  pure h := ⟨rfl, by nofun, .ok h⟩
  fail _ := ⟨rfl, by nofun, .error⟩
  bind := Parallel.bind

def refuses : Lifting where
  Rel := Refuses
  pure h := ⟨rfl, .ok h⟩
  fail _ := ⟨rfl, .error⟩
  bind := Refuses.bind

end Logged

/-- A type that nothing declares is tolerated with one warning or refused. -/
theorem unknownType_tolerated (context : Context) (position : Position) (name : Text) :
    ∃ w e, w.RefusedAs e ∧
      unknownType .asString context position name = ⟨[w], .ok position.fallback⟩ ∧
      unknownType .reject context position name = Logged.fail e := by
  cases h : Text.startsWith '\x7b' name with
  | true =>
    refine ⟨.inlineObjectType context position, _, .inlineObjectType h, ?_, rfl⟩
    simp only [unknownType, h]
    rfl
  | false =>
    refine ⟨.unknownType name context position, _, .unknownType h, ?_, rfl⟩
    simp only [unknownType, h]
    rfl

theorem unknownType_parallel {K : Position → Kind → Kind → Prop}
    (hK : ∀ position, K position position.fallback position.fallback) (policy : UnknownTypePolicy)
    (context : Context) (position : Position) (name : Text) :
    Logged.Parallel (K position) (unknownType policy context position name)
      (unknownType policy context position name) := by
  obtain ⟨w, e, he, htolerant, hstrict⟩ := unknownType_tolerated context position name
  cases policy with
  | reject =>
    rw [hstrict]
    exact Logged.parallel.fail e
  | asString =>
    rw [htolerant]
    refine ⟨rfl, ?_, .ok (hK position)⟩
    intro w' hw'
    obtain rfl := List.mem_singleton.1 hw'
    exact ⟨e, he⟩

/-! ## Refusing unknown types -/

namespace Declaration

/-- The warnings of the compiler all tolerate a type. -/
theorem compile_tolerated (declarations : List Declaration) (options : Options) (root : Text) :
    ∀ w ∈ (compile declarations options root).warnings, ∃ e, w.RefusedAs e := by
  have h : Logged.parallel.Rel (List.Forall₂ (Schema.Alike fun _ => Eq))
      (compile declarations options root) (compile declarations options root) :=
    compile_related Kind.congruent_eq (fun _ _ => rfl)
      (unknownType_parallel (fun _ => rfl) options.unknownTypes) root
  exact h.tolerated

theorem compile_refuses (declarations : List Declaration) (options : Options) (root : Text) :
    Logged.Refuses (List.Forall₂ (Schema.Alike fun _ => Eq))
      (compile declarations { options with unknownTypes := .asString } root)
      (compile declarations { options with unknownTypes := .reject } root) := by
  refine compile_related (L := Logged.refuses) Kind.congruent_eq ?_ ?_ root
  · intro q p
    rfl
  · intro context q name
    obtain ⟨w, e, he, htolerant, hstrict⟩ := unknownType_tolerated context q name
    rw [htolerant, hstrict]
    exact ⟨rfl, e, he, rfl⟩

/-- Under the policy that refuses unknown types no warning is given. If the run that tolerates them
gives none either, the two runs end alike; otherwise the first type that is tolerated is the cause
of failure, in the same place, whatever the other run goes on to do. -/
theorem compile_reject (declarations : List Declaration) (options : Options) (root : Text) :
    let tolerant := compile declarations { options with unknownTypes := .asString } root
    let strict := compile declarations { options with unknownTypes := .reject } root
    strict.warnings = [] ∧ (∀ w ∈ tolerant.warnings, ∃ e, w.RefusedAs e) ∧
      match tolerant.warnings with
      | [] => strict.result = tolerant.result
      | w :: _ => ∃ e, w.RefusedAs e ∧ strict.result = .error e := by
  intro tolerant strict
  have hrefuses := compile_refuses declarations options root
  refine ⟨hrefuses.silent, compile_tolerated declarations _ root, ?_⟩
  have hout := hrefuses.outcome
  change match tolerant.warnings with
    | [] => Logged.Agree _ tolerant.result strict.result
    | w :: _ => ∃ e, w.RefusedAs e ∧ strict.result = .error e at hout
  cases hws : tolerant.warnings with
  | nil =>
    rw [hws] at hout
    have hagree : Logged.Agree _ tolerant.result strict.result := hout
    have hmap : strict.result = tolerant.result.map id :=
      hagree.eq_map fun _ _ h => (Schema.eq_of_forall₂_alike h).symm
    rwa [Except.map_id] at hmap
  | cons w ws =>
    rw [hws] at hout
    exact hout

end Declaration

/-! ## Items of arrays -/

/-- Numbers and booleans become strings, all other kinds stay. -/
def Kind.asItem : Kind → Kind
  | .number => .string
  | .boolean => .string
  | kind => kind

mutual
/-- Makes strings of the items of arrays that are numbers or booleans, at every depth. -/
def Kind.stringItems : Kind → Kind
  | .union branches => .union (Schema.stringItemsAll branches)
  | .object fields => .object (Schema.stringItemsAll fields)
  | .array item => .array { item.stringItems with kind := item.stringItems.kind.asItem }
  | .record item => .record item.stringItems
  | kind => kind
def Schema.stringItems : Schema → Schema
  | ⟨name, optional, description, kind⟩ => ⟨name, optional, description, kind.stringItems⟩
def Schema.stringItemsAll : List Schema → List Schema
  | [] => []
  | s :: rest => s.stringItems :: Schema.stringItemsAll rest
end

theorem Schema.stringItemsAll_eq (l : List Schema) : stringItemsAll l = l.map stringItems := by
  induction l with
  | nil => rw [stringItemsAll, List.map_nil]
  | cons s l ih => rw [stringItemsAll, ih, List.map_cons]

theorem Schema.stringItems_eq (s : Schema) :
    s.stringItems = { s with kind := s.kind.stringItems } := by
  cases s
  rw [stringItems]

theorem eq_map_of_forall₂ {α β : Type} {f : α → β} {l : List α} {l' : List β}
    (h : List.Forall₂ (fun a b => b = f a) l l') : l' = l.map f := by
  induction h with
  | nil => rfl
  | cons hab _ ih => rw [hab, ih, List.map_cons]

namespace Kind

/-- The kind that a type has at a position where items of arrays are strings. -/
def stringItemsAt (position : Position) (kind : Kind) : Kind :=
  if position = .arrayItem then kind.stringItems.asItem else kind.stringItems

end Kind

/-- Fields of objects are no items. -/
theorem Schema.eq_map_of_alike {l l' : List Schema}
    (h : List.Forall₂ (Alike fun position kind kind' => kind' = kind.stringItemsAt position) l l') :
    l' = l.map stringItems := by
  refine eq_map_of_forall₂ (h.imp ?_)
  rintro s _ ⟨_, rfl, rfl⟩
  exact (stringItems_eq s).symm

namespace Kind

/-- Only numbers and booleans depend on the position. -/
theorem stringItemsAt_eq {kind : Kind} (h : kind.stringItems.asItem = kind.stringItems)
    (position : Position) : kind.stringItemsAt position = kind.stringItems := by
  unfold stringItemsAt
  split
  · exact h
  · rfl

theorem stringItems_union (kinds : List Kind) : (union (kinds.map .anonymous)).stringItems =
    union ((kinds.map stringItems).map .anonymous) := by
  have hmap : (kinds.map .anonymous).map Schema.stringItems =
      (kinds.map stringItems).map .anonymous := by
    rw [List.map_map, List.map_map]
    exact List.map_congr_left fun k _ => Schema.stringItems_eq (.anonymous k)
  rw [stringItems, Schema.stringItemsAll_eq, hmap]

theorem congruent_stringItems :
    Congruent fun position kind kind' => kind' = kind.stringItemsAt position where
  enum p values := by
    have hself : (enum values).stringItems = enum values := by simp [stringItems]
    rw [stringItemsAt_eq (by rw [hself]; rfl), hself]
  union p ks ks' h := by
    have hks : ks' = ks.map stringItems := eq_map_of_forall₂ h
    rw [stringItemsAt_eq (by rw [stringItems_union]; rfl), stringItems_union, hks]
  object p fields fields' h := by
    rw [stringItemsAt_eq (by rw [stringItems]; rfl), stringItems, Schema.stringItemsAll_eq,
      Schema.eq_map_of_alike h]
  array p k k' h := by
    rw [stringItemsAt_eq (by rw [stringItems]; rfl), stringItems, Schema.stringItems_eq, h]
    rfl
  record p k k' h := by
    rw [stringItemsAt_eq (by rw [stringItems]; rfl), stringItems, Schema.stringItems_eq, h]
    rfl

end Kind

theorem Primitive.compile_eq_stringItemsAt (position : Position) (p : Primitive) :
    p.compile .asString position = (p.compile .preserve position).stringItemsAt position := by
  cases position <;> cases p <;>
    simp [compile, kind, Kind.stringItemsAt, Kind.stringItems, Kind.asItem]

theorem Position.stringItemsAt_fallback (position : Position) :
    position.fallback = position.fallback.stringItemsAt position := by
  cases position <;> simp [fallback, Kind.stringItemsAt, Kind.stringItems, Kind.asItem,
    Schema.stringItemsAll]

/-- The name stands for a primitive type, perhaps through a chain of aliases. -/
inductive StandsFor (declarations : List Declaration) (p : Primitive) : Text → Prop
  | primitive {name : Text} (h : Primitive.ofName? name = some p) : StandsFor declarations p name
  | through {name other : Text} {d : Declaration} {target : Member}
    (hprim : Primitive.ofName? name = none)
    (hfind : Declaration.find? declarations name = some d) (hbody : d.body = .alias target)
    (hshape : target.shape = .named other) :
    StandsFor declarations p other → StandsFor declarations p name

namespace Declaration

/-- A chain of aliases does not change the position. -/
theorem resolve_standsFor {declarations : List Declaration} {options : Options} {p : Primitive}
    {name : Text} (h : StandsFor declarations p name) {stack : List Text} {member : Text}
    {position : Position} {kind : Kind}
    (hres : (resolve declarations options stack member position name).result = .ok kind) :
    kind = p.compile options.arrayPrimitives position := by
  induction h generalizing stack with
  | primitive hprim =>
    rw [resolve_primitive hprim] at hres
    exact (Except.ok.inj hres).symm
  | @through name other d target hprim hfind hbody hshape _ ih =>
    by_cases hstack : name ∈ stack
    · rw [resolve_cyclic hprim hfind hstack] at hres
      cases hres
    · rw [resolve_declared hprim hfind hstack] at hres
      obtain ⟨_, body⟩ := d
      obtain rfl := hbody
      simp only [expand, hshape] at hres
      exact ih hres

/-- Making strings of the items of arrays changes neither failures nor warnings; the schemas are
those of the run that preserves the items, with the items that are numbers or booleans made
strings. A name that stands for a primitive type, through whatever chain of aliases, is a string
exactly where an array has it as its items. -/
theorem compile_asString (declarations : List Declaration) (options : Options) (root : Text) :
    let preserved := compile declarations { options with arrayPrimitives := .preserve } root
    let loosened := compile declarations { options with arrayPrimitives := .asString } root
    loosened.warnings = preserved.warnings ∧
      loosened.result = preserved.result.map (List.map Schema.stringItems) ∧
      ∀ p name, StandsFor declarations p name → ∀ stack member position kind,
        (resolve declarations { options with arrayPrimitives := .asString } stack member position
          name).result = .ok kind →
        kind = if position = .arrayItem then .string else p.kind := by
  have hparallel : Logged.Parallel
      (List.Forall₂ (Schema.Alike fun position k k' => k' = k.stringItemsAt position))
      (compile declarations { options with arrayPrimitives := .preserve } root)
      (compile declarations { options with arrayPrimitives := .asString } root) := by
    refine compile_related (L := Logged.parallel) Kind.congruent_stringItems ?_ ?_ root
    · intro q p
      exact p.compile_eq_stringItemsAt q
    · exact unknownType_parallel Position.stringItemsAt_fallback options.unknownTypes
  refine ⟨hparallel.warnings.symm, ?_, ?_⟩
  · exact hparallel.outcome.eq_map fun _ _ => Schema.eq_map_of_alike
  · intro p name hname stack member position kind hres
    rw [resolve_standsFor hname hres, Primitive.compile]
    simp

end Declaration

end InterfaceForms

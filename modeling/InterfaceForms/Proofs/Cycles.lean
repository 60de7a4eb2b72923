import InterfaceForms.Proofs.References
import Mathlib.Data.List.Chain
import Mathlib.Data.List.Nodup

/-!
# Reported cycles

The cycle in an error is cut out of the stack of the declarations being expanded. It is a cycle of
the reference graph because the stack is a simple path in it, from the root to the declaration in
which the failing name stands.

* `Declaration.isChain_of_cyclicReference`: a reported cycle is a simple cycle that the root
  reaches.
-/

namespace InterfaceForms.Declaration

variable {declarations : List Declaration} {options : Options} {root : Text} {stack : List Text}
  {member : Text} {position : Position} {name : Text} {path : List Text}

/-- The stack is a simple path of references from the root, and its last declaration mentions the
name to be resolved. -/
structure LeadsTo (declarations : List Declaration) (root : Text) (stack : List Text)
    (name : Text) : Prop where
  nodup : stack.Nodup
  chain : stack.IsChain (RefersTo declarations)
  reaches : ∀ x ∈ stack, Reaches declarations root x
  declared : ∀ x ∈ stack, Declared declarations x
  last : ∃ x d, stack.getLast? = some x ∧ find? declarations x = some d ∧ d.Mentions name

/-- One step of the expansion: a declared name that is not on the stack is pushed, and a name that
its declaration mentions is resolved. -/
theorem LeadsTo.push {d : Declaration} {other : Text} (h : LeadsTo declarations root stack name)
    (hfind : find? declarations name = some d) (hstack : name ∉ stack) (hother : d.Mentions other) :
    LeadsTo declarations root (stack ++ [name]) other := by
  obtain ⟨x, e, hlast, hx, hname⟩ := h.last
  have href : RefersTo declarations x name := ⟨e, hx, hname, d, hfind⟩
  refine ⟨?_, ?_, ?_, ?_, name, d, by simp, hfind, hother⟩
  · simpa [List.nodup_append, h.nodup] using fun a ha => ne_of_mem_of_not_mem ha hstack
  · refine h.chain.append (List.isChain_singleton _) ?_
    intro a ha b hb
    obtain rfl := Option.some.inj (hlast.symm.trans ha)
    obtain rfl := Option.some.inj hb
    exact href
  · intro y hy
    rcases List.mem_append.1 hy with hy | hy
    · exact h.reaches y hy
    · obtain rfl := List.mem_singleton.1 hy
      exact (h.reaches x (List.mem_of_getLast? hlast)).tail href
  · intro y hy
    rcases List.mem_append.1 hy with hy | hy
    · exact h.declared y hy
    · obtain rfl := List.mem_singleton.1 hy
      exact ⟨d, hfind⟩

/-- The names of the path are those of a simple cycle of the graph, and the root reaches it. -/
def CycleFrom (declarations : List Declaration) (root : Text) (path : List Text) : Prop :=
  ∃ first rest, path = first :: rest ++ [first] ∧ (first :: rest).Nodup ∧
    (∀ name ∈ path, Declared declarations name) ∧ Reaches declarations root first ∧
    path.IsChain (RefersTo declarations)

/-- A name that is met again on the stack closes the path from there on to a cycle. -/
theorem LeadsTo.cycleFrom {d : Declaration} (h : LeadsTo declarations root stack name)
    (hfind : find? declarations name = some d) (hstack : name ∈ stack) :
    CycleFrom declarations root (stack.dropWhile (· ≠ name) ++ [name]) := by
  obtain ⟨x, e, hlast, hx, hname⟩ := h.last
  obtain ⟨before, after, rfl, hbefore⟩ := List.eq_append_cons_of_mem hstack
  have hdrop : (before ++ name :: after).dropWhile (· ≠ name) = name :: after := by
    rw [List.dropWhile_append_of_pos]
    · simp
    · intro a ha
      simpa using ne_of_mem_of_not_mem ha hbefore
  rw [hdrop]
  refine ⟨name, after, rfl, (List.nodup_append.1 h.nodup).2.1, ?_, h.reaches name hstack, ?_⟩
  · intro y hy
    rcases List.mem_append.1 hy with hy | hy
    · exact h.declared y (List.mem_append_right _ hy)
    · obtain rfl := List.mem_singleton.1 hy
      exact ⟨d, hfind⟩
  refine h.chain.right_of_append.append (List.isChain_singleton _) ?_
  intro a ha b hb
  obtain rfl := Option.some.inj hb
  have hlast' : (name :: after).getLast? = some x := by
    simpa [List.getLast?_append] using hlast
  obtain rfl := Option.some.inj (hlast'.symm.trans ha)
  exact ⟨e, hx, hname, d, hfind⟩

theorem cycleFrom_of_resolve (hlead : LeadsTo declarations root stack name)
    (h : (resolve declarations options stack member position name).result =
      .error (.cyclicReference path)) : CycleFrom declarations root path := by
  induction stack, name using resolve_ind declarations generalizing member position with
  | primitive stack name p hprim =>
    rw [resolve_primitive hprim] at h
    cases h
  | undeclared stack name hprim hfind =>
    rw [resolve_undeclared hprim hfind] at h
    cases hpolicy : options.unknownTypes <;> rw [hpolicy] at h <;> cases h
  | cyclic stack name d hprim hfind hstack =>
    rw [resolve_cyclic hprim hfind hstack] at h
    cases h
    exact hlead.cycleFrom hfind hstack
  | declared stack name d hprim hfind hstack ih =>
    rw [resolve_declared hprim hfind hstack] at h
    obtain ⟨r, hr, hread⟩ := reading_of_expand_error h
    rcases cause_of_reading_error hr hread with ⟨_, he⟩ | ⟨other, m, q, hother, hres⟩
    · cases he
    · exact ih other (hlead.push hfind hstack hother) hres

/-- A reported cycle leads from a declaration that the root reaches back to it, through distinct
declared names of which each is mentioned in the declaration of the one before. -/
theorem isChain_of_cyclicReference (declarations : List Declaration) (options : Options)
    (root : Text) (path : List Text)
    (h : (compile declarations options root).result = .error (.cyclicReference path)) :
    ∃ first rest, path = first :: rest ++ [first] ∧ (first :: rest).Nodup ∧
      (∀ name ∈ path, Declared declarations name) ∧ Reaches declarations root first ∧
      path.IsChain (RefersTo declarations) := by
  cases hfind : find? declarations root with
  | none =>
    rw [compile_undeclared hfind] at h
    cases h
  | some d =>
    obtain ⟨r, hr, hread⟩ := reading_of_compile_error hfind h
    rcases cause_of_reading_error hr hread with ⟨_, he⟩ | ⟨other, m, q, hother, hres⟩
    · cases he
    · have hlead : LeadsTo declarations root [root] other := by
        refine ⟨List.nodup_singleton _, List.isChain_singleton _, ?_, ?_, root, d, rfl, hfind,
          hother⟩
        · intro x hx
          obtain rfl := List.mem_singleton.1 hx
          exact .refl
        · intro x hx
          obtain rfl := List.mem_singleton.1 hx
          exact ⟨d, hfind⟩
      exact cycleFrom_of_resolve hlead hres

/-- A root outside a cycle of a block and an alias, which refer to each other inside an array. -/
def crossReferences : List Declaration :=
  [⟨"Root".toList, .block [⟨"first".toList, false, "A[]".toList, none, .array "A".toList⟩]⟩,
    ⟨"A".toList, .block [⟨"next".toList, true, "B".toList, none, .named "B".toList⟩]⟩,
    ⟨"B".toList, .alias ⟨[], false, "A[]".toList, none, .array "A".toList⟩⟩]

theorem isChain_of_crossReferences :
    (compile crossReferences {} "Root".toList).result =
      .error (.cyclicReference ["A".toList, "B".toList, "A".toList]) ∧
    ∃ first rest, ["A".toList, "B".toList, "A".toList] = first :: rest ++ [first] ∧
      (first :: rest).Nodup ∧
      (∀ name ∈ ["A".toList, "B".toList, "A".toList], Declared crossReferences name) ∧
      Reaches crossReferences "Root".toList first ∧
      ["A".toList, "B".toList, "A".toList].IsChain (RefersTo crossReferences) := by
  have h : (compile crossReferences {} "Root".toList).result =
      .error (.cyclicReference ["A".toList, "B".toList, "A".toList]) := by
    with_unfolding_all rfl
  exact ⟨h, isChain_of_cyclicReference _ _ _ _ h⟩

end InterfaceForms.Declaration

import InterfaceForms.Compile
import InterfaceForms.Proofs.Conformance

/-!
# Active branches

The active branch of a union is found from the outermost form of a value. A value that conforms to
a branch has the form of it, if the branch is no union. A branch that is a union itself is never
active, whatever conforms to it: to find a branch of every conforming value the branches of the
unions inside have to stand in their place.

* `Schema.alternatives`: the branches of a union, with those of the unions among them.
* `Schema.activeBranch?_of_conforms`: which conforming values have an active branch.
-/

namespace InterfaceForms

variable {v : Value} {s : Schema} {branches : List Schema}

/-! ## Branches that are no unions -/

namespace Kind

def isUnion : Kind → Bool
  | .union _ => true
  | _ => false

theorem not_accepts_union {k : Kind} (h : k.isUnion = true) : k.accepts v = false := by
  cases k with
  | union branches => rfl
  | _ => cases h

/-- A value that conforms to a kind has the outermost form of it. -/
theorem accepts_of_conforms {k : Kind} (hk : k.isUnion = false) (h : k.Conforms v) :
    k.accepts v = true := by
  cases k with
  | string =>
    obtain ⟨t, rfl⟩ := h
    rfl
  | number =>
    obtain ⟨n, rfl⟩ := h
    rfl
  | boolean =>
    obtain ⟨b, rfl⟩ := h
    rfl
  | enum values =>
    obtain ⟨t, ht, rfl⟩ := h
    exact List.contains_iff_mem.2 ht
  | union branches => cases hk
  | object fields =>
    obtain ⟨entries, rfl⟩ := entries_of_conforms_object h
    rfl
  | array item =>
    obtain ⟨items, rfl⟩ := items_of_conforms_array h
    rfl
  | record item =>
    obtain ⟨entries, rfl⟩ := entries_of_conforms_record h
    rfl

end Kind

/-! ## Branches of unions inside unions -/

mutual
/-- The schema, or for a union its branches with those of the unions among them. -/
def Schema.alternatives : Schema → List Schema
  | ⟨_, _, _, .union branches⟩ => alternativesOfAll branches
  | s => [s]
def alternativesOfAll : List Schema → List Schema
  | [] => []
  | s :: rest => s.alternatives ++ alternativesOfAll rest
end

theorem alternativesOfAll_eq :
    alternativesOfAll branches = branches.flatMap Schema.alternatives := by
  induction branches with
  | nil => rw [alternativesOfAll, List.flatMap_nil]
  | cons b rest ih => rw [alternativesOfAll, List.flatMap_cons, ih]

namespace Schema

theorem alternatives_of_union (h : s.kind = .union branches) :
    s.alternatives = branches.flatMap alternatives := by
  obtain ⟨_, _, _, kind⟩ := s
  subst h
  rw [alternatives, alternativesOfAll_eq]

theorem alternatives_of_not_union (h : s.kind.isUnion = false) : s.alternatives = [s] := by
  obtain ⟨name, optional, description, kind⟩ := s
  cases kind with
  | union branches => cases h
  | _ => rw [alternatives]; nofun

/-- The alternatives are no unions, and a value that is not `null` conforms to a schema if it
conforms to one of them. -/
theorem alternatives_spec (hv : v ≠ .null) :
    ∀ s : Schema, (∀ a ∈ s.alternatives, a.kind.isUnion = false) ∧
      (s.Conforms v ↔ ∃ a ∈ s.alternatives, a.Conforms v) := by
  suffices h : ∀ (k : Kind) (s : Schema), s.kind = k →
      (∀ a ∈ s.alternatives, a.kind.isUnion = false) ∧
        (s.Conforms v ↔ ∃ a ∈ s.alternatives, a.Conforms v) from fun s => h s.kind s rfl
  intro k
  induction k with
  | union branches ih =>
    intro s hs
    rw [alternatives_of_union hs, conforms_iff, hs, Kind.conforms_union_iff]
    simp only [List.mem_flatMap, forall_exists_index, and_imp]
    refine ⟨fun a b hb ha => (ih b hb b rfl).1 a ha, ?_⟩
    constructor
    · rintro (hnull | ⟨b, hb, hconf⟩)
      · exact absurd hnull hv
      · obtain ⟨a, ha, hconf⟩ := (ih b hb b rfl).2.1 hconf
        exact ⟨a, ⟨b, hb, ha⟩, hconf⟩
    · rintro ⟨a, ⟨b, hb, ha⟩, hconf⟩
      exact .inr ⟨b, hb, (ih b hb b rfl).2.2 ⟨a, ha, hconf⟩⟩
  | _ =>
    intro s hs
    have hunion : s.kind.isUnion = false := by rw [hs]; rfl
    rw [alternatives_of_not_union hunion]
    simpa using hunion

/-- The active branch is among the first `n` if one of these accepts the value. -/
theorem exists_activeBranch?_lt {n : Nat} :
    (∃ j < n, activeBranch? branches v = some j) ↔
      ∃ b ∈ branches.take n, b.kind.accepts v = true := by
  constructor
  · rintro ⟨j, hj, hactive⟩
    obtain ⟨hlt, haccepts, -⟩ := List.findIdx?_eq_some_iff_getElem.1 hactive
    exact ⟨branches[j], List.mem_take_iff_getElem.2 ⟨j, by omega, rfl⟩, haccepts⟩
  · rintro ⟨b, hb, haccepts⟩
    obtain ⟨j, hj, rfl⟩ := List.mem_take_iff_getElem.1 hb
    have hsome : (branches.findIdx? fun b => b.kind.accepts v).isSome := by
      rw [List.findIdx?_isSome, List.any_eq_true]
      exact ⟨_, List.mem_of_mem_take hb, haccepts⟩
    obtain ⟨m, hm⟩ := Option.isSome_iff_exists.1 hsome
    refine ⟨m, ?_, hm⟩
    obtain ⟨hlt, -, hbefore⟩ := List.findIdx?_eq_some_iff_getElem.1 hm
    by_contra hle
    exact hbefore j (by omega) haccepts

/-- A value that is not `null` and conforms to the branch at `i` has an active branch, at `i` or
before, if that branch is no union; if it is a union, only where a branch before it accepts the
value. Among the alternatives of the branches there is always an active one, at `i` or before. -/
theorem activeBranch?_of_conforms {i : Nat} {b : Schema} (hv : v ≠ .null)
    (hb : branches[i]? = some b) (hconf : b.Conforms v) :
    ((∃ j ≤ i, activeBranch? branches v = some j) ↔
      b.kind.isUnion = false ∨ ∃ c ∈ branches.take i, c.kind.accepts v = true) ∧
    ∃ j < ((branches.take (i + 1)).flatMap alternatives).length,
      activeBranch? (branches.flatMap alternatives) v = some j := by
  have htake : branches.take (i + 1) = branches.take i ++ [b] := by
    rw [List.take_add_one, hb, Option.toList_some]
  constructor
  · simp only [← Nat.lt_succ_iff, exists_activeBranch?_lt, Nat.succ_eq_add_one, htake,
      List.mem_append, List.mem_singleton]
    constructor
    · rintro ⟨c, hc | rfl, haccepts⟩
      · exact .inr ⟨c, hc, haccepts⟩
      · -- a union accepts no value
        refine .inl (Bool.eq_false_iff.2 fun hunion => ?_)
        rw [Kind.not_accepts_union hunion] at haccepts
        cases haccepts
    · rintro (hunion | ⟨c, hc, haccepts⟩)
      · exact ⟨b, .inr rfl, Kind.accepts_of_conforms hunion (conforms_iff.1 hconf)⟩
      · exact ⟨c, .inl hc, haccepts⟩
  · obtain ⟨hunion, hiff⟩ := alternatives_spec hv b
    obtain ⟨a, ha, hconf⟩ := hiff.1 hconf
    have hmem : a ∈ (branches.take (i + 1)).flatMap alternatives :=
      List.mem_flatMap.2 ⟨b, by simp [htake], ha⟩
    have hsplit : branches.flatMap alternatives =
        (branches.take (i + 1)).flatMap alternatives ++
          (branches.drop (i + 1)).flatMap alternatives := by
      rw [← List.flatMap_append, List.take_append_drop]
    rw [exists_activeBranch?_lt, hsplit, List.take_left]
    exact ⟨a, hmem, Kind.accepts_of_conforms (hunion a ha) (conforms_iff.1 hconf)⟩

/-- The branches of `U | boolean`, where `U` is `string | number`. -/
def nestedBranches : List Schema :=
  [.anonymous (.union [.anonymous .string, .anonymous .number]), .anonymous .boolean]

theorem activeBranch?_of_conforms_nested :
    Value.bool true ≠ .null ∧ nestedBranches[1]? = some (.anonymous .boolean) ∧
    (anonymous .boolean).Conforms (.bool true) ∧
    ((∃ j ≤ 1, activeBranch? nestedBranches (.bool true) = some j) ↔
      (anonymous .boolean).kind.isUnion = false ∨
        ∃ c ∈ nestedBranches.take 1, c.kind.accepts (.bool true) = true) ∧
    ∃ j < ((nestedBranches.take (1 + 1)).flatMap alternatives).length,
      activeBranch? (nestedBranches.flatMap alternatives) (.bool true) = some j := by
  have hconf : (anonymous .boolean).Conforms (.bool true) := by
    rw [conforms_iff, anonymous, Kind.Conforms]
    exact ⟨_, rfl⟩
  have hv : Value.bool true ≠ .null := by simp
  exact ⟨hv, rfl, hconf, activeBranch?_of_conforms hv rfl hconf⟩

/-- A union with an alias of a union as its first branch. -/
def aliasedUnionText : Text :=
  "type U = string | number\ninterface A \x7b\n  v: U | boolean;\n\x7d\n".toList

set_option maxRecDepth 4000 in
/-- A string conforms to the first branch of the union, and no branch is active. -/
theorem activeBranch?_aliasedUnionText :
    (Declaration.compileText {} "A".toList aliasedUnionText).result =
      .ok [⟨"v".toList, false, none, .union nestedBranches⟩] ∧
    ∃ b, nestedBranches[0]? = some b ∧ Value.string "x".toList ≠ .null ∧
      b.Conforms (.string "x".toList) ∧
      activeBranch? nestedBranches (.string "x".toList) = none := by
  refine ⟨?_, _, rfl, by simp, ?_, rfl⟩
  · with_unfolding_all rfl
  · rw [conforms_iff, anonymous, Kind.conforms_union_iff]
    refine .inr ⟨_, List.mem_cons_self, ?_⟩
    rw [conforms_iff, anonymous, Kind.Conforms]
    exact ⟨_, rfl⟩

end Schema

end InterfaceForms

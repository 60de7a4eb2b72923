import InterfaceForms.Proofs.ActiveBranches
import InterfaceForms.Proofs.Sessions

/-!
# Switched branches

A switch gives a union a value of the outermost form of the chosen branch, whatever the value was.
So the branch is active afterwards, unless one before it takes the value too. Arrays and records
start as the empty string, as all branches do that carry nothing over and have no form to start
with: a switch to one of these leaves the union with a branch for strings, or with none.

* `Schema.accepts_switchTo_iff`: the branches that take the value they are switched to.
* `Declaration.activeBranch?_switchTo`: the active branch after a switch, at any union of a form.
-/

namespace InterfaceForms

/-! ## The value after a switch -/

namespace Kind

def isCollection : Kind → Bool
  | .array _ => true
  | .record _ => true
  | _ => false

/-- The empty string has the outermost form of the kind. -/
def TakesBlank (k : Kind) : Prop := k = .string ∨ ∃ values, k = .enum values ∧ [] ∈ values

theorem accepts_blank_iff {k : Kind} : k.accepts (.string []) = true ↔ k.TakesBlank := by
  cases k with
  | enum values => simp [accepts, TakesBlank]
  | _ => simp [accepts, TakesBlank]

theorem accepts_firstLiteral {values : List Text} (h : values ≠ []) :
    (enum values).accepts (Schema.firstLiteral values) = true :=
  accepts_of_conforms rfl (firstLiteral_conforms h)

end Kind

namespace Schema

variable {branches : List Schema} {b : Schema} {v : Value} {i j : Nat}

theorem switchTo_collection (h : b.kind.isCollection = true) : v.switchTo b = .string [] := by
  rw [Value.switchTo, branchDefault]
  cases hkind : b.kind with
  | array item => rfl
  | record item => rfl
  | _ => exact absurd h (by simp [hkind, Kind.isCollection])

/-- A branch takes the value it is switched to, if it is no array, record or union. -/
theorem accepts_switchTo_iff (h : b.kind.Inhabited) :
    b.kind.accepts (v.switchTo b) = true ↔
      b.kind.isUnion = false ∧ b.kind.isCollection = false := by
  rw [Value.switchTo, branchDefault]
  cases hkind : b.kind with
  | enum values =>
    have hne : values ≠ [] := by
      rintro rfl
      exact h hkind
    exact iff_of_true (Kind.accepts_firstLiteral hne) ⟨rfl, rfl⟩
  | _ => simp [Kind.accepts, Kind.isUnion, Kind.isCollection]

/-! ## The active branch after a switch -/

/-- The active branch is the first that accepts the value. -/
theorem activeBranch?_eq_some_iff :
    activeBranch? branches v = some j ↔
      (∃ c, branches[j]? = some c ∧ c.kind.accepts v = true) ∧
        ∀ c ∈ branches.take j, c.kind.accepts v = false := by
  rw [activeBranch?, List.findIdx?_eq_some_iff_getElem]
  constructor
  · rintro ⟨hlt, haccepts, hbefore⟩
    refine ⟨⟨_, List.getElem?_eq_getElem hlt, haccepts⟩, fun c hc => ?_⟩
    obtain ⟨m, hm, rfl⟩ := List.mem_take_iff_getElem.1 hc
    exact Bool.eq_false_iff.2 (hbefore m (by omega))
  · rintro ⟨⟨c, hc, haccepts⟩, hbefore⟩
    obtain ⟨hlt, rfl⟩ := List.getElem?_eq_some_iff.1 hc
    refine ⟨hlt, haccepts, fun m hm => ?_⟩
    exact Bool.eq_false_iff.1 (hbefore _ (List.mem_take_iff_getElem.2 ⟨m, by omega, rfl⟩))

/-- Where a branch accepts the value, it is active or one before it is. -/
theorem activeBranch?_of_accepts (hb : branches[i]? = some b) (h : b.kind.accepts v = true) :
    ∃ j ≤ i, activeBranch? branches v = some j ∧
      (j = i ↔ ∀ c ∈ branches.take i, c.kind.accepts v = false) := by
  have hmem : b ∈ branches.take (i + 1) := by
    rw [List.take_add_one, hb, Option.toList_some]
    exact List.mem_append_right _ (List.mem_singleton_self b)
  obtain ⟨j, hj, hactive⟩ := exists_activeBranch?_lt.2 ⟨b, hmem, h⟩
  refine ⟨j, Nat.lt_succ_iff.1 hj, hactive, ?_, fun hbefore => ?_⟩
  · rintro rfl
    exact (activeBranch?_eq_some_iff.1 hactive).2
  · have hself : activeBranch? branches v = some i :=
      activeBranch?_eq_some_iff.2 ⟨⟨b, hb, h⟩, hbefore⟩
    exact Option.some.inj (hactive.symm.trans hself)

/-- After a switch to an array or a record, a branch is active if it is the first for the empty
string. -/
theorem activeBranch?_switchTo_collection (h : b.kind.isCollection = true) :
    activeBranch? branches (v.switchTo b) = some j ↔
      (∃ c, branches[j]? = some c ∧ c.kind.TakesBlank) ∧
        ∀ c ∈ branches.take j, ¬ c.kind.TakesBlank := by
  rw [switchTo_collection h, activeBranch?_eq_some_iff]
  simp only [← Bool.not_eq_true, Kind.accepts_blank_iff]

end Schema

namespace Declaration

variable {options : Options} {root text : Text} {roots branches : List Schema} {s b : Schema}
  {i : Nat}

/-- After a switch of a union in a form, the chosen branch is active, or one before it if that
accepts the new value. Arrays and records start as the empty string, and are not active. -/
theorem activeBranch?_switchTo (h : (compileText options root text).result = .ok roots)
    (hs : s ∈ roots) (hin : Kind.Inside (.union branches) s.kind) (hb : branches[i]? = some b)
    (v : Value) :
    (b.kind.isUnion = false → b.kind.isCollection = false →
      ∃ j ≤ i, Schema.activeBranch? branches (v.switchTo b) = some j ∧
        (j = i ↔ ∀ c ∈ branches.take i, c.kind.accepts (v.switchTo b) = false)) ∧
    (b.kind.isCollection = true →
      v.switchTo b = .string [] ∧
      ∀ j, Schema.activeBranch? branches (v.switchTo b) = some j ↔
        (∃ c, branches[j]? = some c ∧ c.kind.TakesBlank) ∧
          ∀ c ∈ branches.take j, ¬ c.kind.TakesBlank) := by
  constructor
  · intro hunion hcollection
    have hinside : Kind.Inside b.kind s.kind :=
      (Kind.Inside.branch (List.mem_of_getElem? hb) .self).trans hin
    have hinhabited : b.kind.Inhabited :=
      everywhere_compileText Kind.built_inhabited h s hs b.kind hinside
    exact Schema.activeBranch?_of_accepts hb
      ((Schema.accepts_switchTo_iff hinhabited).2 ⟨hunion, hcollection⟩)
  · intro hcollection
    exact ⟨Schema.switchTo_collection hcollection,
      fun j => Schema.activeBranch?_switchTo_collection hcollection⟩

/-- A union of a list and a number. -/
def amountText : Text := "interface A \x7b\n  v: string[] | number;\n\x7d\n".toList

def amountBranches : List Schema :=
  [.anonymous (.array (.anonymous .string)), .anonymous .number]

set_option maxRecDepth 4000 in
theorem activeBranch?_switchTo_amountText :
    ∃ s, (compileText {} "A".toList amountText).result = .ok [s] ∧
      Kind.Inside (.union amountBranches) s.kind ∧
      amountBranches[1]? = some (.anonymous .number) ∧
      ∃ j ≤ 1, Schema.activeBranch? amountBranches
          (Value.switchTo (.anonymous .number) (.bool true)) = some j ∧
        (j = 1 ↔ ∀ c ∈ amountBranches.take 1,
          c.kind.accepts (Value.switchTo (.anonymous .number) (.bool true)) = false) := by
  have hcompile : (compileText {} "A".toList amountText).result =
      .ok [⟨"v".toList, false, none, .union amountBranches⟩] := by
    with_unfolding_all rfl
  refine ⟨_, hcompile, .self, rfl, ?_⟩
  exact (activeBranch?_switchTo hcompile (List.mem_singleton_self _) .self rfl
    (.bool true)).1 rfl rfl

/-- A union of a list and a record. -/
def collectionsText : Text :=
  "interface A \x7b\n  v: string[] | Record<string, number>;\n\x7d\n".toList

def collectionBranches : List Schema :=
  [.anonymous (.array (.anonymous .string)), .anonymous (.record (.anonymous .number))]

set_option maxRecDepth 4000 in
/-- No switch of the union leaves it with an active branch. -/
theorem activeBranch?_switchTo_collectionsText :
    (compileText {} "A".toList collectionsText).result =
      .ok [⟨"v".toList, false, none, .union collectionBranches⟩] ∧
    ∀ v : Value, ∀ b ∈ collectionBranches,
      Schema.activeBranch? collectionBranches (v.switchTo b) = none := by
  constructor
  · with_unfolding_all rfl
  · intro v b hb
    rcases List.mem_pair.1 hb with rfl | rfl
    · rfl
    · rfl

end Declaration

end InterfaceForms

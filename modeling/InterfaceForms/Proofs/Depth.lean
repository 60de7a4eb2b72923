import InterfaceForms.Default
import InterfaceForms.Proofs.Nodes
import Mathlib.Data.List.Chain

/-!
# The form of compiled schemas

The places inside a compiled schema are nameless unless they are fields, and no list of values or
branches is too short. Every object on a way down the schema is a declaration that is expanded
there, or the empty object that is taken for an unknown type. A declaration is not expanded inside
itself, so that a way down passes no more objects than there are declarations, and the default of
the schema is found with as many calls inside each other and one more.

* `Kind.Within`: how many objects the ways down a kind pass at most.
* `Declaration.within_resolve`: what a name stands for has no more objects on a way down than there
  are declarations left to expand, and one more.
* `Declaration.wellBuilt_of_compileText`: the form of the schemas that a text compiles to.
-/

namespace InterfaceForms

/-! ## Ways down a kind -/

namespace Kind

/-- The kinds directly inside a kind. -/
def children : Kind → List Kind
  | .union branches => branches.map (·.kind)
  | .object fields => fields.map (·.kind)
  | .array item => [item.kind]
  | .record item => [item.kind]
  | _ => []

def isObject : Kind → Bool
  | .object _ => true
  | _ => false

/-- Each kind of the list is directly inside the one before it. -/
def IsPath (path : List Kind) : Prop := path.IsChain fun k u => u ∈ k.children

/-- No way down the kind passes more than `n` objects, the kind itself counted. -/
def Within (n : Nat) (k : Kind) : Prop :=
  ∀ path, IsPath (k :: path) → (k :: path).countP isObject ≤ n

variable {n m : Nat} {k : Kind}

theorem Within.mono (h : k.Within n) (hnm : n ≤ m) : k.Within m :=
  fun path hpath => Nat.le_trans (h path hpath) hnm

/-- A way down a kind goes on in one of the kinds inside it. -/
theorem within_of_children (h : ∀ u ∈ k.children, u.Within n) :
    k.Within (n + if k.isObject then 1 else 0) := by
  intro path hpath
  rw [List.countP_cons]
  cases path with
  | nil => simp
  | cons u path =>
    obtain ⟨hu, hpath⟩ := List.isChain_cons_cons.1 hpath
    exact Nat.add_le_add_right (h u hu path hpath) _

theorem Within.of_mem_children (h : k.Within (n + if k.isObject then 1 else 0)) {u : Kind}
    (hu : u ∈ k.children) : u.Within n := by
  intro path hpath
  have hcount := h (u :: path) (List.isChain_cons_cons.2 ⟨hu, hpath⟩)
  rw [List.countP_cons] at hcount
  exact Nat.le_of_add_le_add_right hcount

/-- A kind that is no object has the objects of the kinds inside it. -/
theorem within_of_plain (hk : k.isObject = false) (h : ∀ u ∈ k.children, u.Within n) :
    k.Within n := by
  have := within_of_children h
  rwa [hk] at this

theorem within_object {fields : List Schema} (h : ∀ f ∈ fields, f.kind.Within n) :
    (Kind.object fields).Within (n + 1) :=
  within_of_children (k := .object fields) (List.forall_mem_map.2 h)

theorem Within.field {fields : List Schema} (h : (Kind.object fields).Within (n + 1)) :
    ∀ f ∈ fields, f.kind.Within n :=
  fun _ hf => h.of_mem_children (k := .object fields) (List.mem_map_of_mem hf)

/-- An object is a way down by itself. -/
theorem Within.pos {fields : List Schema} (h : (Kind.object fields).Within n) : 0 < n :=
  h [] (List.isChain_singleton _)

theorem within_fallback (position : Position) (n : Nat) : position.fallback.Within (n + 1) := by
  cases position with
  | recordValue => exact within_object (List.forall_mem_nil _)
  | field => exact within_of_plain rfl (List.forall_mem_nil _)
  | arrayItem => exact within_of_plain rfl (List.forall_mem_nil _)
  | unionBranch => exact within_of_plain rfl (List.forall_mem_nil _)

theorem within_primitive (policy : ArrayPrimitivePolicy) (position : Position) (p : Primitive)
    (n : Nat) : (p.compile policy position).Within n := by
  unfold Primitive.compile
  split
  · exact within_of_plain rfl (List.forall_mem_nil _)
  · cases p <;> exact within_of_plain rfl (List.forall_mem_nil _)

end Kind

/-! ## Calls inside each other for a default -/

/-- The default of a schema, if it is found with at most `calls` calls inside each other. Only an
object asks for the defaults of others, which are its required fields. -/
def Schema.defaultIn : Nat → Schema → Option Value
  | 0, _ => none
  | calls + 1, s =>
    match s.kind with
    | .object fields => do
      let entries ← (fields.filter fun f => !f.optional).mapM fun f => do
        return (f.name, ← defaultIn calls f)
      return .object (Entries.ofList entries)
    | _ => some s.default

theorem Schema.defaultIn_object {calls : Nat} {s : Schema} {fields : List Schema}
    (hs : s.kind = .object fields) (h : ∀ f ∈ fields, f.defaultIn calls = some f.default) :
    s.defaultIn (calls + 1) = some s.default := by
  have hentry : ∀ f ∈ fields.filter fun f => !f.optional,
      (do return (f.name, ← f.defaultIn calls) : Option (Text × Value)) =
        pure (f.name, f.default) := by
    intro f hf
    rw [h f (List.mem_filter.1 hf).1]
    rfl
  rw [defaultIn, hs]
  dsimp only
  rw [mapM_congr_of_mem hentry, List.mapM_pure, default_eq, hs, defaultOfKind,
    requiredDefaults_eq]
  rfl

/-- A default is found with a call for each object on the way down and one more. -/
theorem Schema.defaultIn_of_within {n : Nat} {s : Schema} (h : s.kind.Within n) :
    s.defaultIn (n + 1) = some s.default := by
  induction n generalizing s with
  | zero =>
    rw [defaultIn]
    split
    · rename_i hs
      rw [hs] at h
      exact absurd h.pos (Nat.lt_irrefl 0)
    · rfl
  | succ n ih =>
    cases hs : s.kind with
    | object fields =>
      rw [hs] at h
      exact defaultIn_object hs fun f hf => ih (h.field f hf)
    | _ => rw [defaultIn, hs]

/-! ## Ways down a compiled schema -/

theorem TypeTree.within_compile {n : Nat} {resolve : Position → Text → Logged Kind}
    (hres : ∀ q name k, (resolve q name).result = .ok k → k.Within n) {t : TypeTree}
    {p : Position} {k : Kind} (h : (t.compile resolve p).result = .ok k) : k.Within n := by
  induction t generalizing p k with
  | literals values =>
    cases h
    exact Kind.within_of_plain rfl (List.forall_mem_nil _)
  | union branches ih =>
    simp only [compile] at h
    obtain ⟨kinds, hkinds, rfl⟩ := Logged.bind_pure_ok.1 h
    rw [compileBranches_eq] at hkinds
    refine Kind.within_of_plain rfl fun u hu => ?_
    obtain ⟨s, hs, rfl⟩ := List.mem_map.1 hu
    obtain ⟨k, hk, rfl⟩ := List.mem_map.1 hs
    obtain ⟨b, hb, hb'⟩ := Logged.mem_of_mapM_ok hkinds k hk
    exact ih b hb hb'
  | record v ih =>
    simp only [compile] at h
    obtain ⟨k, hk, rfl⟩ := Logged.bind_pure_ok.1 h
    exact Kind.within_of_plain rfl fun u hu => List.mem_singleton.1 hu ▸ ih hk
  | array v ih =>
    simp only [compile] at h
    obtain ⟨k, hk, rfl⟩ := Logged.bind_pure_ok.1 h
    exact Kind.within_of_plain rfl fun u hu => List.mem_singleton.1 hu ▸ ih hk
  | named name => exact hres p name k h
  | malformed cause => cases h

namespace Declaration

variable {declarations : List Declaration} {options : Options}

/-- What a name stands for has no more objects on a way down than there are declarations left to
expand, and one more for an unknown type. -/
theorem within_resolve {stack : List Text} {member : Text} {position : Position} {name : Text}
    {k : Kind} (h : (resolve declarations options stack member position name).result = .ok k) :
    k.Within ((pending declarations stack).length + 1) := by
  refine resolve_ok_ind (motive := fun stack _ k =>
    k.Within ((pending declarations stack).length + 1)) ?_ ?_ ?_ h
  · intro stack position p
    exact Kind.within_primitive _ _ p _
  · intro stack position
    exact Kind.within_fallback position _
  · intro stack member position name d k hfind hstack ih h
    have hlt := length_pending_lt hfind hstack
    -- Inside the declaration one declaration less is left, and so one object less.
    have hread : ∀ r ∈ d.readings member position, ∀ k,
        (r.compile (resolve declarations options (stack ++ [name]))).result = .ok k →
        k.Within (pending declarations stack).length := fun r _ k hk =>
      TypeTree.within_compile (fun q other k hk => (ih r.member q other k hk).mono hlt) hk
    rcases reading_of_expand_ok h with ⟨r, hr, hk⟩ | ⟨fields, rfl, hfields⟩
    · exact (hread r hr k hk).mono (Nat.le_succ _)
    · refine Kind.within_object fun f hf => ?_
      obtain ⟨r, hr, hk⟩ := hfields f hf
      exact hread r hr f.kind hk

/-- The declaration of the root is being expanded from the beginning. -/
theorem within_compile {root : Text} {roots : List Schema}
    (h : (compile declarations options root).result = .ok roots) :
    ∀ s ∈ roots, s.kind.Within declarations.length := by
  obtain ⟨d, hfind, hread⟩ := reading_of_compile_ok h
  have hlt : (pending declarations [root]).length < (pending declarations []).length :=
    length_pending_lt hfind List.not_mem_nil
  have hall : pending declarations [] = declarations := by
    simp [pending]
  rw [hall] at hlt
  intro s hs
  obtain ⟨r, -, hk⟩ := hread s hs
  exact TypeTree.within_compile (fun q name k hk => (within_resolve hk).mono hlt) hk

end Declaration

/-! ## The form of compiled schemas -/

/-- The schema has no name and no description and is not optional. -/
structure Schema.Plain (s : Schema) : Prop where
  name : s.name = []
  optional : s.optional = false
  description : s.description = none

theorem Schema.plain_anonymous (k : Kind) : (anonymous k).Plain := ⟨rfl, rfl, rfl⟩

/-- What stands inside the kind is plain unless it is a field, and there are enough values and
branches. -/
structure Kind.WellBuilt (k : Kind) : Prop where
  array : ∀ item, k = .array item → item.Plain
  record : ∀ item, k = .record item → item.Plain
  union : ∀ branches, k = .union branches → 2 ≤ branches.length ∧ ∀ b ∈ branches, b.Plain
  enum : ∀ values, k = .enum values → values ≠ []

theorem Kind.built_wellBuilt : Built WellBuilt where
  string := ⟨nofun, nofun, nofun, nofun⟩
  number := ⟨nofun, nofun, nofun, nofun⟩
  boolean := ⟨nofun, nofun, nofun, nofun⟩
  enum values hvalues := ⟨nofun, nofun, nofun, by rintro _ ⟨⟩; exact hvalues⟩
  union kinds hkinds := by
    refine ⟨nofun, nofun, ?_, nofun⟩
    rintro _ ⟨⟩
    rw [List.length_map]
    refine ⟨hkinds, fun b hb => ?_⟩
    obtain ⟨k, _, rfl⟩ := List.mem_map.1 hb
    exact Schema.plain_anonymous k
  object _ := ⟨nofun, nofun, nofun, nofun⟩
  array k := ⟨by rintro _ ⟨⟩; exact Schema.plain_anonymous k, nofun, nofun, nofun⟩
  record k := ⟨nofun, by rintro _ ⟨⟩; exact Schema.plain_anonymous k, nofun, nofun⟩

namespace Declaration

/-- In the schemas that a text compiles to, items of arrays and records and branches of unions are
nameless, not optional and without a description, at every depth; each enum has a value and each
union two branches. A way down from a root passes at most as many objects as the text has
declarations, so that the default of a root is found with that many calls inside each other and one
more. -/
theorem wellBuilt_of_compileText {options : Options} {root t : Text} {roots : List Schema}
    (h : (compileText options root t).result = .ok roots) :
    ∃ declarations, (ofText options t).result = .ok declarations ∧ ∀ s ∈ roots,
      s.kind.Everywhere Kind.WellBuilt ∧
      (∀ path, Kind.IsPath (s.kind :: path) →
        (s.kind :: path).countP Kind.isObject ≤ declarations.length) ∧
      s.defaultIn (declarations.length + 1) = some s.default := by
  obtain ⟨declarations, hdeclarations, hcompile⟩ := Logged.bind_ok.1 h
  refine ⟨declarations, hdeclarations, fun s hs => ⟨?_, ?_, ?_⟩⟩
  · exact everywhere_compileText Kind.built_wellBuilt h s hs
  · exact within_compile hcompile s hs
  · exact Schema.defaultIn_of_within (within_compile hcompile s hs)

/-- An object inside another for each of the two declarations: the inner one stands for a type that
nothing declares. -/
def catalogText : Text :=
  "interface Catalog \x7b\n  items: Item[]\n  best: Item | 'none'\n\x7d\n".toList ++
    "interface Item \x7b\n  prices?: Record<string, Price>\n\x7d".toList

def catalogItem : Kind :=
  .object [⟨"prices".toList, true, none, .record (.anonymous (.object []))⟩]

def catalogRoots : List Schema :=
  [⟨"items".toList, false, none, .array (.anonymous catalogItem)⟩,
    ⟨"best".toList, false, none,
      .union [.anonymous catalogItem, .anonymous (.enum ["none".toList])]⟩]

set_option maxRecDepth 4000 in
theorem wellBuilt_of_catalogText :
    (compileText {} "Catalog".toList catalogText).result = .ok catalogRoots ∧
    ∃ declarations, (ofText {} catalogText).result = .ok declarations ∧ ∀ s ∈ catalogRoots,
      s.kind.Everywhere Kind.WellBuilt ∧
      (∀ path, Kind.IsPath (s.kind :: path) →
        (s.kind :: path).countP Kind.isObject ≤ declarations.length) ∧
      s.defaultIn (declarations.length + 1) = some s.default := by
  have h : (compileText {} "Catalog".toList catalogText).result = .ok catalogRoots := by
    with_unfolding_all rfl
  exact ⟨h, wellBuilt_of_compileText h⟩

end Declaration

end InterfaceForms

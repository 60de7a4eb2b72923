import InterfaceForms.Compile
import InterfaceForms.Entries
import InterfaceForms.Proofs.Checked
import InterfaceForms.Proofs.References
import Mathlib.Data.List.Nodup
import Mathlib.Data.List.Perm.Subperm
import Mathlib.Logic.Relation

/-!
# Calls of the compiler

The compiler can also read the expressions inside a shape only when it comes to them. It then calls
itself for each of them, and for each declaration that it expands. A call for an expression makes
calls for shorter ones, and a declaration is not expanded inside itself. The declarations may be
kept under any keys; a declaration being expanded is known by its name.

* `Call.body`, `Call.run`: a call, and its run with a bound on the calls inside each other.
* `Call.body_congr`: a call depends on the calls that it makes only.
* `Call.rank_lt_of_makes`: a call makes calls of a lower rank.
* `Declaration.compileIn_returns`: the compiler returns for all declarations.
-/

namespace InterfaceForms

/-- The shapes in a declaration: those of its members, or that of its target. -/
def Declaration.shapes (d : Declaration) : List Shape :=
  match d.body with
  | .block members => members.map (·.shape)
  | .alias target => [target.shape]

/-- What the compiler is called for. -/
inductive Task
  /-- To read an expression. -/
  | expr (e : Text)
  /-- To expand a declaration, which is the last on the stack. -/
  | expand (d : Declaration)

structure Call where
  /-- The names of the declarations being expanded, outermost first. -/
  stack : List Text
  /-- The name of the member being compiled. -/
  member : Text
  position : Position
  task : Task

/-! ## A call -/

/-- Reads the shape of an expression. -/
def Shape.read (expr : Text) : Checked Shape :=
  liftM (Logged.ofExcept (Shape.ofExpr expr))

section Bodies

variable (declarations : Entries Declaration) (options : Options)
  (read : Text → Checked Shape) (call : Call → Checked Kind) (stack : List Text) (member : Text)

/-- The kind that a name stands for. The stack is searched for the name of the declaration. -/
def Call.named (position : Position) (name : Text) : Checked Kind :=
  match Primitive.ofName? name with
  | some p => return p.compile options.arrayPrimitives position
  | none =>
    match Entries.get? name declarations with
    | none =>
      liftM (unknownType options.unknownTypes ⟨stack.getLast?.getD [], member⟩ position name)
    | some d =>
      match stack.idxOf? d.name with
      | some start => do
        let path ← Checked.suffix start stack
        liftM (Logged.fail (.cyclicReference (path ++ [d.name])) : Logged Kind)
      | none => call ⟨stack ++ [d.name], member, position, .expand d⟩

def Call.branch : Branch → Checked Kind
  | .primitive type => return type.kind
  | .literal value => return .enum [value]
  | .reference expr => call ⟨stack, member, .unionBranch, .expr expr⟩

def Call.shape (position : Position) : Shape → Checked Kind
  | .enum values => return .enum values
  | .union branches =>
    return .union ((← branches.mapM (branch call stack member)).map .anonymous)
  | .record _ value =>
    return .record (.anonymous (← call ⟨stack, member, .recordValue, .expr value⟩))
  | .array element =>
    return .array (.anonymous (← call ⟨stack, member, .arrayItem, .expr element⟩))
  | .named name => named declarations options call stack member position name

def Call.field (m : Member) : Checked Schema :=
  return ⟨m.name, m.optional, m.description,
    ← shape declarations options call stack m.name .field m.shape⟩

/-- What is done for a call, with `call` giving the kinds of the calls that it makes. -/
def Call.body (c : Call) : Checked Kind :=
  match c.task with
  | .expr e => do
    shape declarations options call c.stack c.member c.position (← read e)
  | .expand d =>
    match d.body with
    | .block members =>
      return .object (← members.mapM (field declarations options call c.stack))
    | .alias target => shape declarations options call c.stack c.member c.position target.shape

/-- The schemas of the declaration with the key `root`. -/
def Declaration.compileBy (root : Text) : Checked (List Schema) :=
  match Entries.get? root declarations with
  | none => liftM (Logged.fail (.rootNotFound root) : Logged (List Schema))
  | some d =>
    match d.body with
    | .block members => members.mapM (Call.field declarations options call [d.name])
    | .alias target => return [← Call.field declarations options call [d.name] target]

/-- The kind that a call gives, with at most `n` calls inside each other. -/
def Call.run : Nat → Call → Checked Kind
  | 0, _ => throw .calls
  | n + 1, c => c.body declarations options read (run n)

/-- The schemas of a root, with at most `n` calls inside each other. -/
def Declaration.compileIn (n : Nat) (root : Text) : Checked (List Schema) :=
  compileBy declarations options (Call.run declarations options read n) root

end Bodies

/-! ## The calls that a call makes -/

/-- The shapes that are compiled for a task. -/
inductive Task.Reads : Task → Shape → Prop
  | expr {e : Text} {s : Shape} (h : Shape.ofExpr e = .ok s) : Reads (.expr e) s
  | expand {d : Declaration} {s : Shape} (h : s ∈ d.shapes) : Reads (.expand d) s

/-- A call made for a shape is one for an expression inside the shape, or it is for the declaration
that the shape names, which is put on the stack. -/
inductive Call.Makes (declarations : Entries Declaration) (c : Call) : Call → Prop
  | expr {s : Shape} {e member : Text} {position : Position} (hs : c.task.Reads s)
      (he : e ∈ s.inner) : Makes declarations c ⟨c.stack, member, position, .expr e⟩
  | expand {name member : Text} {d : Declaration} {position : Position}
      (hs : c.task.Reads (.named name)) (hd : Entries.get? name declarations = some d)
      (hstack : d.name ∉ c.stack) :
      Makes declarations c ⟨c.stack ++ [d.name], member, position, .expand d⟩

namespace Call

variable {declarations : Entries Declaration} {options : Options} {call call' : Call → Checked Kind}
  {c c' : Call}

theorem shape_congr (h : ∀ c', Makes declarations c c' → call c' = call' c') {s : Shape}
    (hs : c.task.Reads s) (member : Text) (position : Position) :
    shape declarations options call c.stack member position s =
      shape declarations options call' c.stack member position s := by
  have hexpr : ∀ e ∈ s.inner, ∀ q,
      call ⟨c.stack, member, q, .expr e⟩ = call' ⟨c.stack, member, q, .expr e⟩ :=
    fun e he q => h _ (.expr hs he)
  cases s with
  | enum values => rfl
  | union branches =>
    have hbranch : ∀ b ∈ branches,
        branch call c.stack member b = branch call' c.stack member b := by
      intro b hb
      cases b with
      | primitive type => rfl
      | literal value => rfl
      | reference e => exact hexpr e (List.mem_filterMap.2 ⟨_, hb, rfl⟩) .unionBranch
    rw [shape, shape, mapM_congr_of_mem hbranch]
  | record key value => rw [shape, shape, hexpr value List.mem_cons_self]
  | array element => rw [shape, shape, hexpr element List.mem_cons_self]
  | named name =>
    rw [shape, shape, named, named]
    split
    · rfl
    split
    · rfl
    · rename_i d hd
      split
      · rfl
      · rename_i hidx
        exact h _ (.expand hs hd (List.idxOf?_eq_none_iff.1 hidx))

theorem field_congr (h : ∀ c', Makes declarations c c' → call c' = call' c') {m : Member}
    (hm : c.task.Reads m.shape) :
    field declarations options call c.stack m = field declarations options call' c.stack m := by
  rw [field, field, shape_congr h hm]

/-- A call depends on the calls that it makes only. -/
theorem body_congr (h : ∀ c', Makes declarations c c' → call c' = call' c') :
    c.body declarations options Shape.read call = c.body declarations options Shape.read call' := by
  obtain ⟨stack, member, position, e | d⟩ := c
  · rw [body, body]
    dsimp only
    cases hshape : Shape.ofExpr e with
    | error cause =>
      rw [Shape.read, hshape]
      rfl
    | ok s =>
      have hread : Shape.read e = pure s := by
        rw [Shape.read, hshape]
        rfl
      rw [hread, pure_bind, pure_bind]
      exact shape_congr h (.expr hshape) member position
  · rw [body, body]
    dsimp only
    split
    · rename_i members hbody
      have hfield : ∀ m ∈ members, field declarations options call stack m =
          field declarations options call' stack m := by
        intro m hm
        refine field_congr h (.expand ?_)
        rw [Declaration.shapes, hbody]
        exact List.mem_map_of_mem hm
      rw [mapM_congr_of_mem hfield]
    · rename_i target hbody
      refine shape_congr h (.expand ?_) member position
      rw [Declaration.shapes, hbody]
      exact List.mem_cons_self

/-- The root is being expanded from the beginning. -/
def root (d : Declaration) : Call := ⟨[d.name], [], .field, .expand d⟩

theorem compileBy_congr {name : Text} (h : ∀ d, Entries.get? name declarations = some d →
      ∀ c', Makes declarations (root d) c' → call c' = call' c') :
    Declaration.compileBy declarations options call name =
      Declaration.compileBy declarations options call' name := by
  rw [Declaration.compileBy, Declaration.compileBy]
  split
  · rfl
  · rename_i d hd
    have hfield : ∀ m : Member, m.shape ∈ d.shapes →
        field declarations options call [d.name] m = field declarations options call' [d.name] m :=
      fun m hm => field_congr (h d hd) (.expand hm)
    rw [Declaration.shapes] at hfield
    split
    · rename_i members hbody
      rw [hbody] at hfield
      exact mapM_congr_of_mem fun m hm => hfield m (List.mem_map_of_mem hm)
    · rename_i target hbody
      rw [hbody] at hfield
      rw [hfield target List.mem_cons_self]

/-! ## What holds of every call -/

/-- The names on the stack are distinct and those of declarations, and so is what is expanded. -/
structure Sound (declarations : Entries Declaration) (c : Call) : Prop where
  nodup : c.stack.Nodup
  declared : ∀ name ∈ c.stack, name ∈ declarations.map (·.2.name)
  known : ∀ d, c.task = .expand d → d ∈ declarations.map (·.2)

theorem mem_of_get? {name : Text} {d : Declaration} (h : Entries.get? name declarations = some d) :
    d ∈ declarations.map (·.2) :=
  List.mem_map_of_mem (f := (·.2)) (Entries.get?_eq_some_mem h)

theorem name_mem_of_get? {name : Text} {d : Declaration}
    (h : Entries.get? name declarations = some d) : d.name ∈ declarations.map (·.2.name) :=
  List.mem_map_of_mem (f := (·.2.name)) (Entries.get?_eq_some_mem h)

theorem Sound.root {name : Text} {d : Declaration} (h : Entries.get? name declarations = some d) :
    (root d).Sound declarations where
  nodup := List.nodup_singleton _
  declared := List.forall_mem_singleton.2 (name_mem_of_get? h)
  known := by
    rintro _ ⟨⟩
    exact mem_of_get? h

theorem Sound.of_makes (hc : c.Sound declarations) (h : Makes declarations c c') :
    c'.Sound declarations := by
  cases h with
  | expr _ _ => exact ⟨hc.nodup, hc.declared, nofun⟩
  | expand _ hd hstack =>
    refine ⟨List.concat_eq_append ▸ hc.nodup.concat hstack, ?_, ?_⟩
    · rw [List.forall_mem_append, List.forall_mem_singleton]
      exact ⟨hc.declared, name_mem_of_get? hd⟩
    · rintro _ ⟨⟩
      exact mem_of_get? hd

theorem Sound.length_stack_le (hc : c.Sound declarations) :
    c.stack.length ≤ declarations.length := by
  have hle := (hc.nodup.subperm hc.declared).length_le
  rwa [List.length_map] at hle

end Call

/-! ## The rank of a call -/

/-- The greatest length of an expression directly inside a declared shape. -/
def Declaration.width (declarations : Entries Declaration) : Nat :=
  ((declarations.flatMap fun entry => entry.2.shapes.flatMap Shape.inner).map List.length).max?.getD
    0

theorem Declaration.length_le_width {declarations : Entries Declaration} {d : Declaration}
    {s : Shape} {e : Text} (hd : d ∈ declarations.map (·.2)) (hs : s ∈ d.shapes)
    (he : e ∈ s.inner) : e.length ≤ width declarations := by
  obtain ⟨entry, hentry, rfl⟩ := List.mem_map.1 hd
  refine List.le_max?_getD_of_mem (List.mem_map_of_mem ?_)
  exact List.mem_flatMap.2 ⟨entry, hentry, List.mem_flatMap.2 ⟨s, hs, he⟩⟩

/-- More than the length of an expression. For a declaration it is greater than for the expressions
in its shapes, which are not longer than `width`. -/
def Task.rank (width : Nat) : Task → Nat
  | .expr e => e.length + 1
  | .expand _ => width + 2

theorem Task.rank_pos (width : Nat) (t : Task) : 0 < t.rank width := by
  cases t with
  | expr e => exact Nat.succ_pos _
  | expand d => exact Nat.succ_pos _

namespace Call

variable {declarations : Entries Declaration} {options : Options} {call : Call → Checked Kind}
  {c c' : Call}

/-- How many declarations are not being expanded. -/
def left (declarations : Entries Declaration) (stack : List Text) : Nat :=
  (Declaration.pending (declarations.map (·.2)) stack).length

/-- The declarations that are left count first, and then the length of the expression. -/
def rank (declarations : Entries Declaration) (c : Call) : Nat :=
  left declarations c.stack * (Declaration.width declarations + 2) +
    c.task.rank (Declaration.width declarations)

theorem rank_pos (c : Call) : 0 < c.rank declarations :=
  Nat.lt_of_lt_of_le (c.task.rank_pos _) (Nat.le_add_left _ _)

theorem left_lt {stack : List Text} {d : Declaration} (hd : d ∈ declarations.map (·.2))
    (hstack : d.name ∉ stack) :
    left declarations (stack ++ [d.name]) < left declarations stack := by
  have hfound : (Declaration.find? (declarations.map (·.2)) d.name).isSome := by
    rw [Declaration.find?, List.find?_isSome]
    exact ⟨d, hd, by simp⟩
  obtain ⟨_, hfind⟩ := Option.isSome_iff_exists.1 hfound
  exact Declaration.length_pending_lt hfind hstack

/-- A call makes calls of a lower rank. -/
theorem rank_lt_of_makes (hc : c.Sound declarations) (h : Makes declarations c c') :
    c'.rank declarations < c.rank declarations := by
  cases h with
  | expr hs he =>
    refine Nat.add_lt_add_left ?_ _
    obtain ⟨stack, member, position, task⟩ := c
    cases hs with
    | expr hshape => exact Nat.succ_lt_succ (Shape.length_lt_of_mem_inner hshape he)
    | expand hs =>
      have hle := Declaration.length_le_width (hc.known _ rfl) hs he
      exact Nat.succ_lt_succ (Nat.lt_succ_of_le hle)
  | expand _ hd hstack =>
    have hleft := Nat.mul_le_mul_right (Declaration.width declarations + 2)
      (left_lt (mem_of_get? hd) hstack)
    rw [Nat.succ_mul] at hleft
    exact Nat.lt_of_le_of_lt hleft (Nat.lt_add_of_pos_right (c.task.rank_pos _))

theorem rank_root_le {name : Text} {d : Declaration}
    (h : Entries.get? name declarations = some d) :
    (root d).rank declarations ≤ declarations.length * (Declaration.width declarations + 2) := by
  have hleft : left declarations [d.name] < declarations.length := by
    have hlt : left declarations ([] ++ [d.name]) < left declarations [] :=
      left_lt (mem_of_get? h) List.not_mem_nil
    refine Nat.lt_of_lt_of_le hlt ?_
    exact Nat.le_trans (List.length_filter_le _ _) (Nat.le_of_eq (List.length_map _))
  have hmul := Nat.mul_le_mul_right (Declaration.width declarations + 2) hleft
  rwa [Nat.succ_mul] at hmul

/-! ## Calls return -/

theorem shape_lifted (h : ∀ c, (call c).Lifted) (stack : List Text) (member : Text)
    (position : Position) (s : Shape) :
    (shape declarations options call stack member position s).Lifted := by
  cases s with
  | enum values => exact Checked.lifted_pure _
  | union branches =>
    refine Checked.Lifted.bind (Checked.Lifted.mapM fun b _ => ?_) fun _ => Checked.lifted_pure _
    cases b with
    | primitive type => exact Checked.lifted_pure _
    | literal value => exact Checked.lifted_pure _
    | reference e => exact h _
  | record key value => exact Checked.Lifted.bind (h _) fun _ => Checked.lifted_pure _
  | array element => exact Checked.Lifted.bind (h _) fun _ => Checked.lifted_pure _
  | named name =>
    rw [shape, named]
    split
    · exact Checked.lifted_pure _
    split
    · exact ⟨_, rfl⟩
    · split
      · rename_i start hstart
        rw [Checked.suffix_of_idxOf? hstart, Checked.ok_bind]
        exact ⟨_, rfl⟩
      · exact h _

theorem field_lifted (h : ∀ c, (call c).Lifted) (stack : List Text) (m : Member) :
    (field declarations options call stack m).Lifted :=
  (shape_lifted h stack m.name .field m.shape).bind fun _ => Checked.lifted_pure _

theorem body_lifted (h : ∀ c, (call c).Lifted) (c : Call) :
    (c.body declarations options Shape.read call).Lifted := by
  unfold body
  split
  · exact Checked.Lifted.bind ⟨_, rfl⟩ fun s => shape_lifted h _ _ _ s
  · split
    · exact (Checked.Lifted.mapM fun m _ => field_lifted h _ m).bind fun _ => Checked.lifted_pure _
    · exact shape_lifted h _ _ _ _

theorem compileBy_lifted (h : ∀ c, (call c).Lifted) (name : Text) :
    (Declaration.compileBy declarations options call name).Lifted := by
  unfold Declaration.compileBy
  split
  · exact ⟨_, rfl⟩
  split
  · exact Checked.Lifted.mapM fun m _ => field_lifted h _ m
  · exact (field_lifted h _ _).bind fun _ => Checked.lifted_pure _

/-- With as many calls inside each other as its rank, a call returns, and more make no
difference. -/
theorem exists_run (options : Options) (hc : c.Sound declarations) :
    ∃ r : Logged Kind, ∀ n, c.rank declarations ≤ n →
      run declarations options Shape.read n c = liftM r := by
  induction hrank : c.rank declarations using Nat.strongRecOn generalizing c with
  | ind k ih =>
    have hcalls : ∀ c', ∃ r : Logged Kind, Makes declarations c c' →
        ∀ n, c'.rank declarations ≤ n → run declarations options Shape.read n c' = liftM r := by
      intro c'
      by_cases h : Makes declarations c c'
      · have hlt := rank_lt_of_makes hc h
        obtain ⟨r, hr⟩ := ih _ (hrank ▸ hlt) (hc.of_makes h) rfl
        exact ⟨r, fun _ => hr⟩
      · exact ⟨Logged.fail .noDeclarations, fun h' => absurd h' h⟩
    choose value hvalue using hcalls
    have hbody : (c.body declarations options Shape.read fun c' => liftM (value c')).Lifted :=
      body_lifted (fun c' => ⟨value c', rfl⟩) c
    obtain ⟨r, hr⟩ := hbody
    refine ⟨r, fun n hn => ?_⟩
    rw [← hrank] at hn
    obtain ⟨n, rfl⟩ := Nat.exists_eq_add_one.2 (Nat.lt_of_lt_of_le c.rank_pos hn)
    rw [run, ← hr]
    refine body_congr fun c' h => hvalue c' h n ?_
    exact Nat.le_of_lt_succ (Nat.lt_of_lt_of_le (rank_lt_of_makes hc h) hn)

end Call

/-! ## Declarations under their names -/

namespace Declaration

/-- The declarations, each with its name as the key. -/
def keyed (declarations : List Declaration) : Entries Declaration :=
  declarations.map fun d => (d.name, d)

variable {declarations : List Declaration} {options : Options}

theorem get?_keyed (name : Text) :
    Entries.get? name (keyed declarations) = find? declarations name := by
  rw [Entries.get?, keyed, find?, List.find?_map, Option.map_map]
  exact congrFun Option.map_id _

theorem name_eq_of_find? {name : Text} {d : Declaration} (h : find? declarations name = some d) :
    d.name = name := by
  simpa using List.find?_some h

end Declaration

namespace Call

variable {declarations : List Declaration} {options : Options}

/-- The kind that a call stands for. -/
def value (declarations : List Declaration) (options : Options) (c : Call) : Logged Kind :=
  match c.task with
  | .expr e =>
    (TypeTree.ofExpr e).compile (Declaration.resolve declarations options c.stack c.member)
      c.position
  | .expand d => d.expand (Declaration.resolve declarations options c.stack) c.member c.position

theorem named_value (stack : List Text) (member : Text) (position : Position) (name : Text) :
    named (Declaration.keyed declarations) options (fun c => liftM (value declarations options c))
        stack member position name =
      liftM (Declaration.resolve declarations options stack member position name) := by
  rw [named, Declaration.get?_keyed]
  cases hprim : Primitive.ofName? name with
  | some p => rw [Declaration.resolve_primitive hprim, liftM_pure]
  | none =>
    cases hfind : Declaration.find? declarations name with
    | none => rw [Declaration.resolve_undeclared hprim hfind]
    | some d =>
      obtain rfl := Declaration.name_eq_of_find? hfind
      dsimp only
      cases hidx : stack.idxOf? d.name with
      | some start =>
        have hmem : d.name ∈ stack := by
          rw [← List.isSome_idxOf?, hidx]
          rfl
        rw [Declaration.resolve_cyclic hprim hfind hmem]
        dsimp only
        rw [Checked.suffix_of_idxOf? hidx, Checked.ok_bind]
      | none =>
        rw [Declaration.resolve_declared hprim hfind (List.idxOf?_eq_none_iff.1 hidx)]
        rfl

theorem branch_value (stack : List Text) (member : Text) (b : Branch) :
    branch (fun c => liftM (value declarations options c)) stack member b =
      liftM (b.tree.compile (Declaration.resolve declarations options stack member)
        .unionBranch) := by
  cases b with
  | primitive type =>
    have hnot : ¬(Position.unionBranch = .arrayItem ∧ options.arrayPrimitives = .asString) := by
      rintro ⟨⟨⟩, -⟩
    rw [branch, Branch.tree, TypeTree.compile,
      Declaration.resolve_primitive (Primitive.ofName?_name type), liftM_pure, Primitive.compile,
      if_neg hnot]
  | literal value => rfl
  | reference e => rfl

theorem shape_value (stack : List Text) (member : Text) (position : Position) (s : Shape) :
    shape (Declaration.keyed declarations) options (fun c => liftM (value declarations options c))
        stack member position s =
      liftM (s.tree.compile (Declaration.resolve declarations options stack member) position) := by
  cases s with
  | enum values => rfl
  | union branches =>
    have hbranches : branches.mapM
        (branch (fun c => liftM (value declarations options c)) stack member) =
        liftM (TypeTree.compileBranches (Declaration.resolve declarations options stack member)
          (branches.map Branch.tree)) := by
      rw [TypeTree.compileBranches_eq, List.mapM_map, ← Checked.mapM_lift]
      exact mapM_congr_of_mem fun b _ => branch_value stack member b
    rw [shape, hbranches, Shape.tree, TypeTree.compile, liftM_bind]
    rfl
  | record key value =>
    simp only [shape, Shape.tree, TypeTree.compile, liftM_bind, liftM_pure]
    rfl
  | array element =>
    simp only [shape, Shape.tree, TypeTree.compile, liftM_bind, liftM_pure]
    rfl
  | named name => exact named_value stack member position name

theorem field_value (stack : List Text) (m : Member) :
    field (Declaration.keyed declarations) options (fun c => liftM (value declarations options c))
        stack m =
      liftM (m.compile (Declaration.resolve declarations options stack m.name)) := by
  rw [field, shape_value, Member.compile, liftM_bind]
  rfl

theorem fields_value (stack : List Text) (members : List Member) :
    members.mapM (field (Declaration.keyed declarations) options
        (fun c => liftM (value declarations options c)) stack) =
      liftM (members.mapM fun m : Member =>
        m.compile (Declaration.resolve declarations options stack m.name)) := by
  rw [← Checked.mapM_lift]
  exact mapM_congr_of_mem fun m _ => field_value stack m

theorem body_value (c : Call) :
    c.body (Declaration.keyed declarations) options Shape.read
        (fun c => liftM (value declarations options c)) =
      liftM (value declarations options c) := by
  obtain ⟨stack, member, position, e | ⟨name, members | target⟩⟩ := c
  · rw [body, value]
    dsimp only
    rw [TypeTree.ofExpr_eq, Shape.read]
    cases hshape : Shape.ofExpr e with
    | error cause => rfl
    | ok s => exact shape_value stack member position s
  · show (do return Kind.object (← members.mapM (field (Declaration.keyed declarations) options
        (fun c => liftM (value declarations options c)) stack))) =
      (liftM (do return Kind.object (← members.mapM fun m : Member =>
        m.compile (Declaration.resolve declarations options stack m.name))) : Checked Kind)
    rw [fields_value, liftM_bind]
    rfl
  · exact shape_value stack member position target.shape

/-- With as many calls inside each other as its rank, a call gives the kind that it stands for. -/
theorem run_eq_value {c : Call} (hc : c.Sound (Declaration.keyed declarations)) {n : Nat}
    (hn : c.rank (Declaration.keyed declarations) ≤ n) :
    run (Declaration.keyed declarations) options Shape.read n c =
      liftM (value declarations options c) := by
  induction n generalizing c with
  | zero => exact absurd hn (Nat.not_le_of_lt c.rank_pos)
  | succ n ih =>
    rw [run, ← body_value c]
    refine body_congr fun c' h => ih (hc.of_makes h) ?_
    exact Nat.le_of_lt_succ (Nat.lt_of_lt_of_le (rank_lt_of_makes hc h) hn)

end Call

/-! ## The compiler returns -/

/-- The second call is made to read an expression inside a shape that the first one compiles. The
expression is shorter than any that has this shape. -/
def Call.Reclassifies (c c' : Call) : Prop :=
  c'.stack = c.stack ∧ ∃ s e, c.task.Reads s ∧ c'.task = .expr e ∧ e ∈ s.inner ∧
    ∀ x, Shape.ofExpr x = .ok s → e.length < x.length

/-- The second call is made to expand a declaration that the first one does not stand in. -/
def Call.Expands (declarations : Entries Declaration) (c c' : Call) : Prop :=
  ∃ d ∈ declarations.map (·.2), c'.task = .expand d ∧ d.name ∉ c.stack ∧
    c'.stack = c.stack ++ [d.name]

theorem Call.Makes.cases {declarations : Entries Declaration} {c c' : Call}
    (h : Makes declarations c c') : c.Reclassifies c' ∨ c.Expands declarations c' := by
  cases h with
  | @expr s e _ _ hs he =>
    exact .inl ⟨rfl, s, e, hs, rfl, he, fun _ hx => Shape.length_lt_of_mem_inner hx he⟩
  | @expand _ _ d _ _ hd hstack => exact .inr ⟨d, mem_of_get? hd, rfl, hstack, rfl⟩

theorem Call.Sound.of_reached {declarations : Entries Declaration} {c c' : Call}
    (hc : c.Sound declarations) (h : Relation.ReflTransGen (Makes declarations) c c') :
    c'.Sound declarations := by
  induction h with
  | refl => exact hc
  | tail _ hmakes ih => exact ih.of_makes hmakes

namespace Declaration

/-- Enough calls inside each other are those that the rank of the root allows. -/
theorem compileIn_eq_compileBy {declarations : Entries Declaration} {options : Options}
    {value : Call → Logged Kind} {n : Nat} (root : Text)
    (hvalue : ∀ c, c.Sound declarations → ∀ n, c.rank declarations ≤ n →
      Call.run declarations options Shape.read n c = liftM (value c))
    (hn : declarations.length * (width declarations + 2) ≤ n) :
    compileIn declarations options Shape.read n root =
      compileBy declarations options (fun c => liftM (value c)) root := by
  refine Call.compileBy_congr fun d hd c h => ?_
  have hroot := Call.Sound.root hd
  refine hvalue c (hroot.of_makes h) n ?_
  exact Nat.le_trans (Nat.le_of_lt (Call.rank_lt_of_makes hroot h))
    (Nat.le_trans (Call.rank_root_le hd) hn)

variable {declarations : List Declaration} {options : Options}

theorem compileBy_value (declarations : List Declaration) (options : Options) (root : Text) :
    compileBy (keyed declarations) options (fun c => liftM (c.value declarations options)) root =
      liftM (compile declarations options root) := by
  rw [compileBy, get?_keyed]
  cases hfind : find? declarations root with
  | none => rw [compile_undeclared hfind]
  | some d =>
    obtain rfl := name_eq_of_find? hfind
    obtain ⟨name, members | target⟩ := d
    · dsimp only
      simp only [compile, hfind]
      exact Call.fields_value [name] members
    · dsimp only
      simp only [compile, hfind]
      rw [Call.field_value, liftM_bind]
      rfl

theorem compileIn_eq {n : Nat} (root : Text)
    (hn : (keyed declarations).length * (width (keyed declarations) + 2) ≤ n) :
    compileIn (keyed declarations) options Shape.read n root =
      liftM (compile declarations options root) := by
  rw [compileIn_eq_compileBy root (fun c hc n hn => Call.run_eq_value hc hn) hn, compileBy_value]

theorem exists_compileIn (declarations : Entries Declaration) (options : Options) (root : Text) :
    ∃ r : Logged (List Schema), ∀ n, declarations.length * (width declarations + 2) ≤ n →
      compileIn declarations options Shape.read n root = liftM r := by
  have hcalls : ∀ c, ∃ r : Logged Kind, c.Sound declarations → ∀ n, c.rank declarations ≤ n →
      Call.run declarations options Shape.read n c = liftM r := by
    intro c
    by_cases hc : c.Sound declarations
    · obtain ⟨r, hr⟩ := Call.exists_run options hc
      exact ⟨r, fun _ => hr⟩
    · exact ⟨Logged.fail .noDeclarations, fun hc' => absurd hc' hc⟩
  choose value hvalue using hcalls
  have hroot : (compileBy declarations options (fun c => liftM (value c)) root).Lifted :=
    Call.compileBy_lifted (fun c => ⟨value c, rfl⟩) root
  obtain ⟨r, hr⟩ := hroot
  exact ⟨r, fun n hn => by rw [compileIn_eq_compileBy root hvalue hn, hr]⟩

/-- The compiler returns for all declarations under any keys. A number of calls inside each other
that depends on the declarations only is enough, and more make no difference. What it gives for the
root depends on the calls that it makes only, and so does each of these. A call is made to read an
expression inside the one that it comes from, which is longer, or to expand a declaration that is
not on the stack; no name is twice on the stack, and so there are at most as many as declarations.
If every declaration is kept under its name, the compiler gives what they compile to. -/
theorem compileIn_returns (declarations : Entries Declaration) (options : Options) (root : Text) :
    (∃ r : Logged (List Schema), ∀ n, declarations.length * (width declarations + 2) ≤ n →
      compileIn declarations options Shape.read n root = liftM r) ∧
    (∀ call call', (∀ d, Entries.get? root declarations = some d →
        ∀ c, Call.Makes declarations (.root d) c → call c = call' c) →
      compileBy declarations options call root = compileBy declarations options call' root) ∧
    (∀ d, Entries.get? root declarations = some d → ∀ c,
      Relation.ReflTransGen (Call.Makes declarations) (.root d) c →
        c.stack.Nodup ∧ c.stack.length ≤ declarations.length ∧
        (∀ call call', (∀ c', Call.Makes declarations c c' → call c' = call' c') →
          c.body declarations options Shape.read call =
            c.body declarations options Shape.read call') ∧
        ∀ c', Call.Makes declarations c c' → c.Reclassifies c' ∨ c.Expands declarations c') ∧
    ∀ ds, declarations = keyed ds → ∀ n, declarations.length * (width declarations + 2) ≤ n →
      compileIn declarations options Shape.read n root = liftM (compile ds options root) := by
  refine ⟨exists_compileIn declarations options root, ?_, ?_, ?_⟩
  · intro call call' h
    exact Call.compileBy_congr h
  · intro d hd c hreached
    have hc := (Call.Sound.root hd).of_reached hreached
    exact ⟨hc.nodup, hc.length_stack_le, fun _ _ h => Call.body_congr h, fun _ h => h.cases⟩
  · rintro ds rfl n hn
    exact compileIn_eq root hn

end Declaration

end InterfaceForms

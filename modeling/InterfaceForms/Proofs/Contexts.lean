import InterfaceForms.Proofs.AddedLines
import InterfaceForms.Proofs.DirectRoots

/-!
# Where unknown types stand

An unknown type is reported with a declaration and a member. The declaration is the last one on the
stack, in a type of which the name stands. The member is the one whose type is being compiled, and
an alias has none of its own: its target is read for the member of the block from which aliases
lead to it.

* `Logged.Places`: what is true of all reports of a run, of its failure and of its warnings.
* `Declaration.ComesTo`: the names that a root comes to, each with the context it is read in.
* `Declaration.standsAt_of_compileText`: where the reports of a text point.
-/

namespace InterfaceForms

/-! ## Reports -/

namespace Logged

variable {α β : Type} {P Q : Text → Context → Prop} {x : Logged α} {f : α → Logged β}

/-- `P` holds of each unknown type that the run fails for or falls back from, and of its context. A
warning of an object written out does not name the type; that starts with a brace. -/
structure Places (P : Text → Context → Prop) (x : Logged α) : Prop where
  refused : ∀ name context, x.result = .error (.unknownType name context) → P name context
  tolerated : ∀ name context position, .unknownType name context position ∈ x.warnings →
    P name context
  inlineObject : ∀ context position, .inlineObjectType context position ∈ x.warnings →
    ∃ name, Text.startsWith '\x7b' name = true ∧ P name context

theorem Places.imp (h : x.Places P) (hPQ : ∀ name context, P name context → Q name context) :
    x.Places Q where
  refused name context he := hPQ name context (h.refused name context he)
  tolerated name context position hw :=
    hPQ name context (h.tolerated name context position hw)
  inlineObject context position hw := by
    obtain ⟨name, hbrace, hname⟩ := h.inlineObject context position hw
    exact ⟨name, hbrace, hPQ name context hname⟩

theorem Places.pure (a : α) : (Pure.pure a : Logged α).Places P := ⟨nofun, nofun, nofun⟩

theorem Places.fail {e : ParseError} (he : ∀ name context, e ≠ .unknownType name context) :
    (Logged.fail e : Logged α).Places P :=
  ⟨fun name context h => absurd (Except.error.inj h) (he name context), nofun, nofun⟩

/-- Other warnings report no unknown type. -/
theorem Places.warnings {ws : List Warning} {a : α}
    (hunknown : ∀ name context position, .unknownType name context position ∉ ws)
    (hobject : ∀ context position, .inlineObjectType context position ∉ ws) :
    (⟨ws, .ok a⟩ : Logged α).Places P :=
  ⟨nofun, fun name context position hw => absurd hw (hunknown name context position),
    fun context position hw => absurd hw (hobject context position)⟩

theorem Places.bind (hx : x.Places P) (hf : ∀ a, x.result = .ok a → (f a).Places P) :
    (x >>= f).Places P := by
  have hwarnings : ∀ w ∈ (x >>= f).warnings,
      w ∈ x.warnings ∨ ∃ a, x.result = .ok a ∧ w ∈ (f a).warnings := by
    intro w hw
    rw [bind_warnings] at hw
    rcases List.mem_append.1 hw with hw | hw
    · exact .inl hw
    · cases hresult : x.result with
      | error e =>
        rw [hresult] at hw
        cases hw
      | ok a =>
        rw [hresult] at hw
        exact .inr ⟨a, rfl, hw⟩
  constructor
  · intro name context h
    rcases bind_error.1 h with h | ⟨a, ha, h⟩
    · exact hx.refused name context h
    · exact (hf a ha).refused name context h
  · intro name context position hw
    rcases hwarnings _ hw with hw | ⟨a, ha, hw⟩
    · exact hx.tolerated name context position hw
    · exact (hf a ha).tolerated name context position hw
  · intro context position hw
    rcases hwarnings _ hw with hw | ⟨a, ha, hw⟩
    · exact hx.inlineObject context position hw
    · exact (hf a ha).inlineObject context position hw

theorem Places.bind_pure {g : α → β} (hx : x.Places P) :
    (x >>= fun a => Pure.pure (g a)).Places P :=
  hx.bind fun _ _ => .pure _

theorem Places.mapM {f : α → Logged β} {l : List α} (h : ∀ a ∈ l, (f a).Places P) :
    (l.mapM f).Places P := by
  induction l with
  | nil => exact .pure _
  | cons a l ih =>
    rw [List.mapM_cons]
    exact (h a List.mem_cons_self).bind fun _ _ =>
      (ih fun x hx => h x (List.mem_cons_of_mem a hx)).bind_pure

end Logged

theorem places_unknownType {P : Text → Context → Prop} {name : Text} {context : Context}
    (h : P name context) (policy : UnknownTypePolicy) (position : Position) :
    (unknownType policy context position name).Places P := by
  cases policy with
  | reject =>
    refine ⟨?_, nofun, nofun⟩
    rintro _ _ ⟨⟩
    exact h
  | asString =>
    refine Logged.Places.bind_pure ⟨nofun, ?_, ?_⟩
    · intro name' context' position' hw
      obtain hw := List.mem_singleton.1 hw
      split at hw
      · cases hw
      · cases hw
        exact h
    · intro context' position' hw
      obtain hw := List.mem_singleton.1 hw
      split at hw
      · rename_i hbrace
        cases hw
        exact ⟨name, hbrace, h⟩
      · cases hw

/-! ## Reading a text reports no unknown type -/

section Scan

variable {P : Text → Context → Prop}

theorem Section.places_readBlock (owner : Text) (nested : Nat) (lines : List MemberLine)
    (segments : List Segment) : (readBlock owner nested lines segments).Places P := by
  induction segments generalizing nested lines with
  | nil => exact .pure _
  | cons s rest ih =>
    unfold readBlock
    split
    · cases nested with
      | zero => exact .pure _
      | succ nested => exact ih nested lines
    · split
      · exact ih _ lines
      · split
        · exact ih 0 _
        · split
          · split
            · exact (Logged.Places.warnings (by simp) (by simp)).bind fun _ _ => ih 1 _
            · exact ih 0 _
          · exact ih 0 lines

theorem Section.places_readAlias (owner expr : Text) (segments : List Segment) :
    (readAlias owner expr segments).Places P := by
  induction segments generalizing expr with
  | nil => exact .pure _
  | cons s rest ih =>
    unfold readAlias
    split
    · rw [map_eq_pure_bind]
      exact (places_readBlock owner 0 [] rest).bind_pure
    · split
      · exact ih _
      · exact .pure _

theorem Section.places_read (s : Section) : s.read.Places P := by
  unfold read
  split
  · rw [map_eq_pure_bind]
    exact (places_readBlock _ 0 [] s.body).bind_pure.bind_pure
  · exact (places_readAlias _ _ s.body).bind_pure

theorem Source.places_checkDuplicate (policy : DuplicatePolicy) (found : List Source)
    (s : Section) : (checkDuplicate policy found s).Places P := by
  unfold checkDuplicate
  split
  · exact .pure _
  · cases policy with
    | reject => exact .fail nofun
    | lastWins => exact .warnings (by simp) (by simp)

theorem Source.places_collect (policy : DuplicatePolicy) (found : List Source)
    (sections : List Section) : (collect policy found sections).Places P := by
  induction sections generalizing found with
  | nil => exact .pure _
  | cons s rest ih =>
    unfold collect
    exact (places_checkDuplicate policy found s).bind fun _ _ =>
      s.places_read.bind fun _ _ => ih _

theorem Source.places_scan (policy : DuplicatePolicy) (t : Text) : (scan policy t).Places P := by
  unfold scan
  refine (places_collect policy [] _).bind fun found _ => ?_
  refine (Logged.Places.warnings (by simp) (by simp)).bind fun kept _ => ?_
  split
  · exact .fail nofun
  · exact .pure _

theorem Declaration.places_ofText (options : Options) (t : Text) :
    (ofText options t).Places P := by
  refine (Source.places_scan options.duplicates t).bind fun sources _ => ⟨?_, nofun, nofun⟩
  intro name context h
  obtain ⟨source, -, hsource⟩ := Except.mem_of_mapM_error h
  obtain ⟨expr, he⟩ := ofSource_error hsource
  cases he

end Scan

/-! ## The names that a compilation comes to -/

/-- What is true of the reports of the names in a type is true of those of the type. -/
theorem TypeTree.places_compile {P : Text → Context → Prop}
    {resolve : Position → Text → Logged Kind} {t : TypeTree} {p : Position}
    (hread : ∀ q cause, Part p t q (.malformed cause) → ∃ inner, cause = .malformedRecord inner)
    (hname : ∀ q name, Part p t q (.named name) → (resolve q name).Places P) :
    (t.compile resolve p).Places P := by
  induction t generalizing p with
  | literals values => exact .pure _
  | union branches ih =>
    simp only [compile, compileBranches_eq]
    refine (Logged.Places.mapM fun b hb => ih b hb ?_ ?_).bind_pure
    · intro q cause hpart
      exact hread q cause (.branch hb hpart)
    · intro q name hpart
      exact hname q name (.branch hb hpart)
  | record v ih =>
    simp only [compile]
    exact (ih (fun q cause hpart => hread q cause (.value hpart))
      fun q name hpart => hname q name (.value hpart)).bind_pure
  | array v ih =>
    simp only [compile]
    exact (ih (fun q cause hpart => hread q cause (.item hpart))
      fun q name hpart => hname q name (.item hpart)).bind_pure
  | named name => exact hname p name .self
  | malformed cause =>
    obtain ⟨inner, rfl⟩ := hread p cause .self
    refine .fail fun name context h => ?_
    cases h

namespace Declaration

variable {declarations : List Declaration} {options : Options} {root : Text} {d : Declaration}

/-- Expanding the root comes to `name` in a type that is read in the context. -/
inductive ComesTo (declarations : List Declaration) (root : Text) : Context → Text → Prop
  | root {d : Declaration} {r : Reading} {position : Position} {name : Text}
    (hfind : find? declarations root = some d) (hr : r ∈ d.readings d.ownMember position)
    (hname : r.type.Mentions name) : ComesTo declarations root ⟨root, r.member⟩ name
  | next {context : Context} {other : Text} {d : Declaration} {r : Reading} {position : Position}
    {name : Text} (h : ComesTo declarations root context other)
    (hfind : find? declarations other = some d) (hr : r ∈ d.readings context.member position)
    (hname : r.type.Mentions name) : ComesTo declarations root ⟨other, r.member⟩ name

/-- An undeclared name that the root comes to, in the context. -/
def ComesToUnknown (declarations : List Declaration) (root name : Text) (context : Context) :
    Prop :=
  find? declarations name = none ∧ ComesTo declarations root context name

/-- The reports of a declaration are those of the names in its types. -/
theorem places_reading {P : Text → Context → Prop} {stack : List Text} {member : Text}
    {position : Position} {r : Reading} (hr : r ∈ d.readings member position)
    (h : ∀ q name, r.type.Mentions name →
      (resolve declarations options stack r.member q name).Places P) :
    (r.compile (resolve declarations options stack)).Places P := by
  obtain ⟨s, hs⟩ := exists_shape_of_reading hr
  refine TypeTree.places_compile ?_ fun q name hpart => ?_
  · intro q cause hpart
    rw [hs] at hpart
    exact Shape.tree_malformed hpart
  · cases hprim : Primitive.ofName? name with
    | some p =>
      rw [resolve_primitive hprim]
      exact .pure _
    | none =>
      obtain ⟨q', hpart'⟩ := hpart.reposition .field
      exact h q name ⟨hprim, q', hpart'⟩

theorem places_expand {P : Text → Context → Prop}
    {resolve : Text → Position → Text → Logged Kind} {member : Text} {position : Position}
    (h : ∀ r ∈ d.readings member position, (r.compile resolve).Places P) :
    (d.expand resolve member position).Places P := by
  obtain ⟨_, members | target⟩ := d
  · refine (Logged.Places.mapM fun m hm => ?_).bind_pure
    exact (h _ (List.mem_map_of_mem hm)).bind_pure
  · exact h _ (List.mem_singleton_self _)

/-- The last declaration on the stack is the one in whose type the name stands, and the member is
the one that type is read for. So it stays when a declaration is pushed. -/
theorem places_resolve {stack : List Text} {member x : Text} {position : Position} {name : Text}
    (hcomes : ComesTo declarations root ⟨x, member⟩ name) (hlast : stack.getLast? = some x) :
    (resolve declarations options stack member position name).Places
      (ComesToUnknown declarations root) := by
  induction stack, name using resolve_ind declarations generalizing member x position with
  | primitive stack name p hprim =>
    rw [resolve_primitive hprim]
    exact .pure _
  | undeclared stack name hprim hfind =>
    rw [resolve_undeclared hprim hfind, hlast, Option.getD_some]
    exact places_unknownType ⟨hfind, hcomes⟩ options.unknownTypes position
  | cyclic stack name d hprim hfind hstack =>
    rw [resolve_cyclic hprim hfind hstack]
    exact .fail nofun
  | declared stack name d hprim hfind hstack ih =>
    rw [resolve_declared hprim hfind hstack]
    refine places_expand fun r hr => places_reading hr fun q other hother => ?_
    exact ih other (hcomes.next hfind hr hother) List.getLast?_concat

theorem places_compile (declarations : List Declaration) (options : Options) (root : Text) :
    (compile declarations options root).Places (ComesToUnknown declarations root) := by
  cases hfind : find? declarations root with
  | none =>
    rw [compile_undeclared hfind]
    exact .fail nofun
  | some d =>
    have hread : ∀ r ∈ d.readings d.ownMember .field,
        (r.compile (resolve declarations options [root])).Places
          (ComesToUnknown declarations root) := fun r hr =>
      places_reading hr fun q name hname => places_resolve (.root hfind hr hname) rfl
    simp only [compile, hfind]
    obtain ⟨_, members | target⟩ := d
    · refine Logged.Places.mapM fun m hm => ?_
      exact (hread _ (List.mem_map_of_mem hm)).bind_pure
    · exact (hread _ (List.mem_singleton_self _)).bind_pure.bind_pure

/-! ## Members and aliases -/

/-- The name stands in the type of a member of that name, in some block, or in the target of an
alias whose own name does. -/
inductive ReadFor (declarations : List Declaration) (member : Text) : Text → Prop
  | member {block name : Text} {d : Declaration} {members : List Member} {m : Member}
    (hfind : find? declarations block = some d) (hbody : d.body = .block members)
    (hm : m ∈ members) (hmember : m.name = member) (hname : m.shape.tree.Mentions name) :
    ReadFor declarations member name
  | target {other name : Text} {d : Declaration} {target : Member}
    (h : ReadFor declarations member other) (hfind : find? declarations other = some d)
    (hbody : d.body = .alias target) (hname : target.shape.tree.Mentions name) :
    ReadFor declarations member name

/-- The name stands where the context says: in the type of the member, if the declaration is a
block, or in the target of the alias. Then the member, if there is one, is that from which aliases
lead to this one. -/
def StandsAt (declarations : List Declaration) (name : Text) (context : Context) : Prop :=
  ∃ d, find? declarations context.declaration = some d ∧
    ((∃ members, d.body = .block members ∧
        ∃ m ∈ members, m.name = context.member ∧ m.shape.tree.Mentions name) ∨
      ∃ target, d.body = .alias target ∧ target.shape.tree.Mentions name ∧
        (context.member = [] ∨ ReadFor declarations context.member context.declaration))

section StandsAt

variable {name : Text} {context : Context}

theorem StandsAt.readFor (h : StandsAt declarations name context) :
    context.member = [] ∨ ReadFor declarations context.member name := by
  obtain ⟨d, hfind, ⟨members, hbody, m, hm, hmember, hname⟩ | ⟨target, hbody, hname, hread⟩⟩ := h
  · exact .inr (.member hfind hbody hm hmember hname)
  · rcases hread with hnone | hread
    · exact .inl hnone
    · exact .inr (.target hread hfind hbody hname)

theorem StandsAt.refersTo (h : StandsAt declarations name context)
    (hname : Declared declarations name) : RefersTo declarations context.declaration name := by
  obtain ⟨d, hfind, ⟨members, hbody, m, hm, -, hmention⟩ | ⟨target, hbody, hmention, -⟩⟩ := h
  · refine ⟨d, hfind, ⟨m.shape.tree, ?_, hmention⟩, hname⟩
    rw [types, hbody]
    exact List.mem_map_of_mem hm
  · refine ⟨d, hfind, ⟨target.shape.tree, ?_, hmention⟩, hname⟩
    rw [types, hbody]
    exact List.mem_singleton_self _

/-- A type of a declaration is that of one of its members, or its target, which is read for the
member that the alias is read for. -/
theorem standsAt_of_reading {other member : Text} {position : Position} {r : Reading}
    (hfind : find? declarations other = some d) (hr : r ∈ d.readings member position)
    (hname : r.type.Mentions name)
    (hmember : (∃ target, d.body = .alias target) →
      member = [] ∨ ReadFor declarations member other) :
    StandsAt declarations name ⟨other, r.member⟩ := by
  refine ⟨d, hfind, ?_⟩
  unfold readings at hr
  rcases hbody : d.body with members | target
  · rw [hbody] at hr
    obtain ⟨m, hm, rfl⟩ := List.mem_map.1 hr
    exact .inl ⟨members, rfl, m, hm, rfl, hname⟩
  · rw [hbody] at hr
    obtain rfl := List.mem_singleton.1 hr
    exact .inr ⟨target, rfl, hname, hmember ⟨target, hbody⟩⟩

theorem ComesTo.standsAt (h : ComesTo declarations root context name)
    (htargeted : ∀ d ∈ declarations, d.WellTargeted) :
    StandsAt declarations name context ∧ Reaches declarations root context.declaration := by
  induction h with
  | root hfind hr hname =>
    refine ⟨standsAt_of_reading hfind hr hname ?_, .refl⟩
    rintro ⟨target, hbody⟩
    left
    rw [ownMember, hbody]
    exact htargeted _ (List.mem_of_find?_eq_some hfind) target hbody
  | next _ hfind hr hname ih =>
    obtain ⟨hstands, hreaches⟩ := ih
    exact ⟨standsAt_of_reading hfind hr hname fun _ => hstands.readFor,
      hreaches.tail (hstands.refersTo ⟨_, hfind⟩)⟩

end StandsAt

/-- Each unknown type that the compilation of a text fails for or falls back from is undeclared and
stands where its context says, in a declaration that the root reaches. -/
theorem standsAt_of_compileText (options : Options) (root t : Text) :
    (compileText options root t).Places fun name context =>
      ∃ declarations, (ofText options t).result = .ok declarations ∧
        find? declarations name = none ∧ Primitive.ofName? name = none ∧
        Reaches declarations root context.declaration ∧ StandsAt declarations name context := by
  refine (places_ofText options t).bind fun declarations hdeclarations => ?_
  refine (places_compile declarations options root).imp ?_
  rintro name context ⟨hfind, hcomes⟩
  obtain ⟨hstands, hreaches⟩ := hcomes.standsAt fun d hd => (of_ofText hdeclarations hd).2
  have hprim : Primitive.ofName? name = none := by
    cases hcomes with
    | root _ _ hname => exact hname.1
    | next _ _ _ hname => exact hname.1
  exact ⟨declarations, hdeclarations, hfind, hprim, hreaches, hstands⟩

/-- The target of an alias, which is met in a member of a block, is not declared. -/
def aliasedNameText : Text :=
  "interface A \x7b\n  m: U;\n\x7d\ntype U = Missing\n".toList

set_option maxRecDepth 4000 in
theorem result_aliasedNameText :
    (compileText { unknownTypes := .reject } "A".toList aliasedNameText).result =
      .error (.unknownType "Missing".toList ⟨"U".toList, "m".toList⟩) := by
  with_unfolding_all rfl

theorem standsAt_of_aliasedNameText :
    ∃ declarations, (ofText { unknownTypes := .reject } aliasedNameText).result = .ok declarations ∧
      find? declarations "Missing".toList = none ∧
      Reaches declarations "A".toList "U".toList ∧
      StandsAt declarations "Missing".toList ⟨"U".toList, "m".toList⟩ := by
  obtain ⟨declarations, hdeclarations, hfind, -, hreaches, hstands⟩ :=
    (standsAt_of_compileText { unknownTypes := .reject } "A".toList aliasedNameText).refused
      _ _ result_aliasedNameText
  exact ⟨declarations, hdeclarations, hfind, hreaches, hstands⟩

def aliasedNames : List Declaration :=
  [⟨"A".toList, .block [⟨"m".toList, false, "U".toList, none, .named "U".toList⟩]⟩,
    ⟨"U".toList, .alias ⟨[], false, "Missing".toList, none, .named "Missing".toList⟩⟩]

set_option maxRecDepth 4000 in
/-- The context is that of a member, and the declaration in it is no block. -/
theorem context_aliasedNameText :
    (compileText { unknownTypes := .reject } "A".toList aliasedNameText).result =
      .error (.unknownType "Missing".toList ⟨"U".toList, "m".toList⟩) ∧
    (ofText { unknownTypes := .reject } aliasedNameText).result = .ok aliasedNames ∧
    ∃ d, find? aliasedNames "U".toList = some d ∧ ∀ members, d.body ≠ .block members := by
  refine ⟨result_aliasedNameText, ?_, _, rfl, nofun⟩
  with_unfolding_all rfl

end Declaration

end InterfaceForms

import InterfaceForms.Proofs.Grammar
import Mathlib.Order.WellFoundedSet

/-!
# The meaning of declarations

The references of well-formed declarations lead to finitely many names and never in a circle, so
what the names stand for can be given by recursion along them.

* `Decls.WellFormed.exists_isMeaning`: well-formed declarations have a meaning.
-/

namespace InterfaceForms

variable {policy : ArrayPrimitivePolicy} {env env' : Position → Text → Kind}

/-! ## Only the names mentioned matter -/

theorem TypeExpr.WellFormed.kind_congr {t : TypeExpr} (ht : t.WellFormed)
    (h : ∀ name, t.Mentions name → ∀ position, env position name = env' position name)
    (position : Position) : t.kind policy env position = t.kind policy env' position := by
  induction ht generalizing position with
  | primitive type => rfl
  | name _ => exact h _ .name position
  | literals _ _ => rfl
  | array _ ih => rw [TypeExpr.kind, TypeExpr.kind, ih fun name hn => h name (.item hn)]
  | record _ ih => rw [TypeExpr.kind, TypeExpr.kind, ih fun name hn => h name (.value hn)]
  | @union ts _ _ _ ih =>
    have hkinds : ts.map (TypeExpr.kind policy env .unionBranch) =
        ts.map (TypeExpr.kind policy env' .unionBranch) :=
      List.map_congr_left fun t ht => ih t ht (fun name hn => h name (.alternative ht hn)) _
    rw [TypeExpr.kind, TypeExpr.kind, TypeExpr.kinds_eq, TypeExpr.kinds_eq, hkinds]

theorem Decl.WellFormed.kind_congr {d : Decl} (hd : d.WellFormed)
    (h : ∀ name, d.Mentions name → ∀ position, env position name = env' position name)
    (position : Position) : d.kind policy env position = d.kind policy env' position := by
  obtain ⟨name, fields | target⟩ := d
  · have hfields : ∀ f ∈ fields, f.WellFormed := hd.body
    have hschemas : fields.map (·.schema policy env) = fields.map (·.schema policy env') := by
      refine List.map_congr_left fun f hf => ?_
      rw [FieldDecl.schema, FieldDecl.schema,
        (hfields f hf).type.kind_congr fun n hn => h n ⟨f.type, List.mem_map_of_mem hf, hn⟩]
    exact congrArg Kind.object hschemas
  · have htarget : target.WellFormed := hd.body
    exact htarget.kind_congr (fun n hn => h n ⟨target, List.mem_singleton_self target, hn⟩) position

namespace Decls

variable {ds : List Decl}

/-- A name is declared by one declaration only. -/
theorem find?_of_mem (hnames : (ds.map (·.name)).Nodup) {d : Decl} (hd : d ∈ ds) :
    ds.find? (·.name = d.name) = some d := by
  induction ds with
  | nil => cases hd
  | cons e ds ih =>
    rw [List.map_cons, List.nodup_cons] at hnames
    rcases List.mem_cons.1 hd with rfl | hd
    · simp
    · have hne : e.name ≠ d.name := fun heq =>
        hnames.1 (List.mem_map.2 ⟨d, hd, heq.symm⟩)
      simpa [hne] using ih hnames.2 hd

/-- No chain of references goes on forever: it would come back to one of the finitely many
declared names. -/
theorem WellFormed.wellFounded (h : WellFormed ds) : WellFounded fun b a => Refers ds a b := by
  have horder : IsStrictOrder Text fun b a => Relation.TransGen (Refers ds) a b :=
    { irrefl := h.acyclic, trans := fun _ _ _ hab hbc => hbc.trans hab }
  have hfinite : {name | ∃ d ∈ ds, d.name = name}.Finite := by
    refine (List.finite_toSet (ds.map (·.name))).subset ?_
    rintro _ ⟨d, hd, rfl⟩
    exact List.mem_map_of_mem hd
  have hwf := hfinite.wellFoundedOn (r := fun b a => Relation.TransGen (Refers ds) a b)
  refine Subrelation.wf ?_ (Set.wellFoundedOn_iff.1 hwf)
  intro b a hab
  have hdeclared := h.declared a b hab
  obtain ⟨d, hd, hname, _⟩ := id hab
  exact ⟨.single hab, hdeclared, d, hd, hname⟩

section

open Classical

/-- What a name stands for at a position. -/
noncomputable def WellFormed.meaning (h : WellFormed ds) (policy : ArrayPrimitivePolicy) :
    Text → Position → Kind :=
  h.wellFounded.fix fun name rest position =>
    ((ds.find? (·.name = name)).map (Decl.kind policy
      (fun q n => if href : Refers ds name n then rest n href q else .string) position)).getD
      .string

theorem WellFormed.meaning_eq (h : WellFormed ds) (policy : ArrayPrimitivePolicy) (name : Text)
    (position : Position) :
    h.meaning policy name position = ((ds.find? (·.name = name)).map (Decl.kind policy
      (fun q n => if Refers ds name n then h.meaning policy n q else .string) position)).getD
      .string := by
  unfold WellFormed.meaning
  rw [WellFounded.fix_eq]
  rfl

/-- Well-formed declarations have a meaning. -/
theorem WellFormed.exists_isMeaning (h : WellFormed ds) (policy : ArrayPrimitivePolicy) :
    ∃ env, IsMeaning policy env ds := by
  refine ⟨fun position name => h.meaning policy name position, fun d hd position => ?_⟩
  have hkind : d.kind policy
      (fun q n => if Refers ds d.name n then h.meaning policy n q else .string) position =
      d.kind policy (fun q n => h.meaning policy n q) position :=
    (h.decl d hd).kind_congr (fun n hn q => if_pos ⟨d, hd, rfl, hn⟩) position
  show h.meaning policy d.name position = _
  rw [← hkind, h.meaning_eq, find?_of_mem h.names hd]
  rfl

end

end Decls

end InterfaceForms

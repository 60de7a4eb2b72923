import InterfaceForms.Proofs.Composition
import InterfaceForms.Proofs.HeaderNames
import InterfaceForms.Proofs.Locality
import InterfaceForms.Proofs.TextOrder

/-!
# Direct roots

Whether the roots of a form are the whole value or the fields of an object is told by their names
alone: a single root without a name is taken for the target of an alias. The target of an alias has
no name, but a member may have none either, since its name is what is left of its key without
question marks and quotes. Apart from blocks of one such member, the first document of a block is
an object, and that of each alias of the block is the same.

* `Declaration.isDirectRoot_compile`: which declarations give a direct root.
* `Declaration.keys_defaultDocument`: the first document of a block.
* `Declaration.compile_alias`: an alias under a new name is the object that the block is.
* `Declaration.isDirectRoot_compileText`: the statement for the roots of a text.
-/

namespace InterfaceForms

/-! ## The declarations of a text -/

theorem Section.exists_header {segments : List Segment} {s : Section}
    (h : s ∈ ofSegments segments) : ∃ segment ∈ segments,
      Header.ofLine? segment.text = some s.header := by
  induction segments with
  | nil => cases h
  | cons segment segments ih =>
    rw [ofSegments] at h
    split at h
    · obtain ⟨x, hx, hline⟩ := ih h
      exact ⟨x, List.mem_cons_of_mem _ hx, hline⟩
    · rename_i header hheader
      rcases List.mem_cons.1 h with rfl | h
      · exact ⟨segment, List.mem_cons_self, hheader⟩
      · obtain ⟨x, hx, hline⟩ := ih h
        exact ⟨x, List.mem_cons_of_mem _ hx, hline⟩

/-- A source is named by a header. -/
theorem Source.isName_of_scan {policy : DuplicatePolicy} {t : Text} {kept : List Source}
    (h : (scan policy t).result = .ok kept) {source : Source} (hsource : source ∈ kept) :
    Header.isName source.name = true := by
  have hkey : source.name ∈ Entries.keys (records kept) := by
    rw [records, Entries.keys, List.map_map]
    exact List.mem_map_of_mem (f := fun s : Source => s.name) hsource
  rw [keys_records_scan h] at hkey
  have hmem := List.mem_eraseDups.1 (List.mem_filter.1 hkey).1
  obtain ⟨s, hs, hname⟩ := List.mem_map.1 hmem
  obtain ⟨_, _, hline⟩ := Section.exists_header hs
  rw [← hname]
  exact Header.isName_of_ofLine? hline

namespace Declaration

variable {declarations : List Declaration} {options : Options} {root : Text}
  {roots : List Schema} {t : Text} {d : Declaration}

def IsAlias (d : Declaration) : Prop := ∃ target, d.body = .alias target

/-- The declaration is a block of one member, which has no name. -/
def IsNamelessBlock (d : Declaration) : Prop := ∃ m, d.body = .block [m] ∧ m.name = []

/-- The target of an alias has no name. -/
def WellTargeted (d : Declaration) : Prop := ∀ target, d.body = .alias target → target.name = []

theorem wellTargeted_of_ofSource {source : Source} (h : ofSource source = .ok d) :
    d.WellTargeted := by
  rcases ofSource_cases h with ⟨_, _, -, -, rfl⟩ | ⟨_, _, -, -, rfl⟩
  · nofun
  · rintro target ⟨⟩
    rfl

theorem of_ofText (h : (ofText options t).result = .ok declarations) (hd : d ∈ declarations) :
    Header.isName d.name = true ∧ d.WellTargeted := by
  obtain ⟨kept, hkept, h⟩ := Logged.bind_ok.1 h
  obtain ⟨source, hsource, hof⟩ := Except.mem_of_mapM_ok h d hd
  rw [name_ofSource hof]
  exact ⟨Source.isName_of_scan hkept hsource, wellTargeted_of_ofSource hof⟩

/-! ## The names of the roots -/

/-- The roots of a block have the names of its members and are optional where these are. -/
theorem names_of_mapM {resolve : Text → Position → Text → Logged Kind} {members : List Member}
    (h : (members.mapM fun m : Member => m.compile (resolve m.name)).result = .ok roots) :
    roots.map (fun s => (s.name, s.optional)) = members.map fun m => (m.name, m.optional) := by
  have hall := Logged.mapM_ok.1 h
  clear h
  induction hall with
  | nil => rfl
  | cons hm _ ih =>
    obtain ⟨k, -, rfl⟩ := Logged.bind_pure_ok.1 hm
    rw [List.map_cons, List.map_cons, ih]

theorem isDirectRoot_eq (roots : List Schema) :
    Schema.isDirectRoot roots = true ↔ roots.map (·.name) = [[]] := by
  unfold Schema.isDirectRoot Schema.isAnonymous
  split
  · simp
  · rename_i hnot
    constructor
    · nofun
    · intro h
      obtain ⟨s, rest, rfl, -, hrest⟩ := List.map_eq_cons_iff.1 h
      obtain rfl := List.map_eq_nil_iff.1 hrest
      exact absurd rfl (hnot s)

theorem names_of_compile_block {members : List Member} (hfind : find? declarations root = some d)
    (hbody : d.body = .block members)
    (h : (compile declarations options root).result = .ok roots) :
    roots.map (fun s => (s.name, s.optional)) = members.map fun m => (m.name, m.optional) := by
  simp only [compile, hfind, hbody] at h
  exact @names_of_mapM _ (resolve declarations options [root]) _ h

/-- A declaration gives a direct root when it is an alias, or a block of a member without a name. -/
theorem isDirectRoot_compile (hfind : find? declarations root = some d) (hd : d.WellTargeted)
    (h : (compile declarations options root).result = .ok roots) :
    Schema.isDirectRoot roots = true ↔ d.IsAlias ∨ d.IsNamelessBlock := by
  rw [isDirectRoot_eq]
  rcases hbody : d.body with members | target
  · have hnames : roots.map (·.name) = members.map (·.name) := by
      have hpairs := congrArg (List.map Prod.fst) (names_of_compile_block hfind hbody h)
      rwa [List.map_map, List.map_map] at hpairs
    rw [hnames]
    constructor
    · intro hone
      obtain ⟨m, rest, rfl, hm, hrest⟩ := List.map_eq_cons_iff.1 hone
      obtain rfl := List.map_eq_nil_iff.1 hrest
      exact .inr ⟨m, hbody, hm⟩
    · rintro (⟨target, halias⟩ | ⟨m, hblock, hm⟩)
      · rw [hbody] at halias
        cases halias
      · rw [hbody] at hblock
        cases hblock
        rw [List.map_singleton, hm]
  · simp only [compile, hfind, hbody] at h
    obtain ⟨s, hs, rfl⟩ := Logged.bind_pure_ok.1 h
    obtain ⟨k, -, rfl⟩ := Logged.bind_pure_ok.1 hs
    exact iff_of_true (by simp [hd target hbody]) (.inl ⟨target, hbody⟩)

/-! ## The first document -/

theorem defaultDocument_of_not_direct (h : Schema.isDirectRoot roots ≠ true) :
    Schema.defaultDocument roots = .object (Entries.ofList (Schema.requiredDefaults roots)) := by
  unfold Schema.defaultDocument
  split
  · rename_i hdirect
    exact absurd hdirect h
  · rfl

/-- The first document of a block has an entry for each name of a member that is not optional. -/
theorem keys_defaultDocument {members : List Member} (hfind : find? declarations root = some d)
    (hbody : d.body = .block members)
    (h : (compile declarations options root).result = .ok roots) :
    Entries.keys (Entries.ofList (Schema.requiredDefaults roots)) =
      ((members.filter (!·.optional)).map (·.name)).eraseDups := by
  have hrequired : Entries.keys (Schema.requiredDefaults roots) =
      ((roots.map fun s => (s.name, s.optional)).filter (!·.2)).map Prod.fst := by
    rw [Schema.requiredDefaults_eq, Entries.keys, List.map_map, List.filter_map, List.map_map]
    rfl
  rw [Entries.keys_ofList, hrequired, names_of_compile_block hfind hbody h, List.filter_map,
    List.map_map]
  rfl

/-! ## An alias of the root -/

/-- What compiles as a root is sound, and so is all that it reaches. -/
theorem sound_of_compile (hfind : find? declarations root = some d)
    (h : (compile declarations options root).Succeeds) :
    ∀ name, Reaches declarations root name → Sound declarations options name := by
  rw [compile_succeeds hfind] at h
  intro name hreach
  have hread : ∀ r ∈ d.readings d.ownMember .field,
      (r.compile (resolve declarations options ([] ++ [root]))).Succeeds := h
  refine (sound_of_readings hfind hread ?_ List.not_mem_nil name hreach).2
  intro other m q hprim hdecl hres
  exact sound_of_resolve hprim hdecl hres

/-- The declarations and after them an alias of `root`. -/
def withAlias (declarations : List Declaration) (root name : Text) : List Declaration :=
  declarations ++ [⟨name, .alias ⟨[], false, root, none, .named root⟩⟩]

variable {name : Text}

theorem find?_withAlias_self (hfresh : find? declarations name = none) :
    find? (withAlias declarations root name) name =
      some ⟨name, .alias ⟨[], false, root, none, .named root⟩⟩ := by
  have hnone : List.find? (fun d : Declaration => d.name = name) declarations = none := hfresh
  simp [find?, withAlias, List.find?_append, hnone]

theorem find?_withAlias_of_ne {other : Text} (hne : name ≠ other) :
    find? (withAlias declarations root name) other = find? declarations other := by
  simp [find?, withAlias, List.find?_append, hne]

/-- An alias of a block, under a name that the block does not meet, compiles to the object of what
the block compiles to. -/
theorem compile_alias {members : List Member} (hfind : find? declarations root = some d)
    (hbody : d.body = .block members) (hprim : Primitive.ofName? root = none)
    (h : (compile declarations options root).result = .ok roots)
    (hfresh : find? declarations name = none) (hmeets : ¬ Meets declarations root name) :
    (compile (withAlias declarations root name) options name).result =
      .ok [.anonymous (.object roots)] := by
  have hsame : ∀ x, Meets declarations root x →
      find? declarations x = find? (withAlias declarations root name) x := by
    intro x hx
    refine (find?_withAlias_of_ne ?_).symm
    rintro rfl
    exact hmeets hx
  have hfind' : find? (withAlias declarations root name) root = some d := by
    rw [← hsame root .root, hfind]
  rw [compile_congr hsame] at h
  have halias : find? (withAlias declarations root name) name =
      some ⟨name, .alias ⟨[], false, root, none, .named root⟩⟩ := find?_withAlias_self hfresh
  -- Nothing that the block reaches is the alias, since that leads to the block.
  have hrefers : RefersTo (withAlias declarations root name) name root :=
    ⟨_, halias, ⟨_, List.mem_singleton_self _, hprim, .field, .self⟩, ⟨d, hfind'⟩⟩
  have hresolves : (resolve (withAlias declarations root name) options [name] [] .field
      root).Succeeds := by
    refine resolve_of_sound hprim ⟨d, hfind'⟩ ?_ (sound_of_compile hfind' ⟨roots, h⟩)
    intro x hx
    obtain rfl := List.mem_singleton.1 hx
    exact .single hrefers
  obtain ⟨k, hk⟩ := hresolves
  obtain ⟨fields, rfl, hfields⟩ := compile_of_resolve hprim hfind' hbody hk
  obtain rfl := Except.ok.inj (h.symm.trans hfields)
  simp only [compile, halias]
  refine Logged.bind_pure_ok.2 ⟨_, Logged.bind_pure_ok.2 ⟨_, hk, rfl⟩, rfl⟩

/-- The roots of a text are direct when the root is an alias or a block of one member without a
name. For any other block the first document is an object, with an entry for each name of a member
that is not optional, and it is that of each alias of the block, under a name that is new and that
the block does not meet. -/
theorem isDirectRoot_compileText (h : (compileText options root t).result = .ok roots) :
    ∃ declarations d, (ofText options t).result = .ok declarations ∧
      find? declarations root = some d ∧
      (Schema.isDirectRoot roots = true ↔ d.IsAlias ∨ d.IsNamelessBlock) ∧
      ∀ members, d.body = .block members → ¬ d.IsNamelessBlock →
        (∃ entries, Schema.defaultDocument roots = .object entries ∧
          Entries.keys entries = ((members.filter (!·.optional)).map (·.name)).eraseDups) ∧
        (Primitive.ofName? root = none → ∀ name, find? declarations name = none →
          ¬ Meets declarations root name →
          ∃ target roots', Member.ofAlias root = .ok target ∧
            (compile (declarations ++ [⟨name, .alias target⟩]) options name).result = .ok roots' ∧
            Schema.defaultDocument roots' = Schema.defaultDocument roots) := by
  obtain ⟨declarations, hdeclarations, h⟩ := Logged.bind_ok.1 h
  cases hfind : find? declarations root with
  | none =>
    rw [compile_undeclared hfind] at h
    cases h
  | some d =>
    obtain ⟨hname, htargeted⟩ := of_ofText hdeclarations (List.mem_of_find?_eq_some hfind)
    have hroot : d.name = root := by simpa using List.find?_some hfind
    have hdirect := isDirectRoot_compile hfind htargeted h
    refine ⟨declarations, d, hdeclarations, hfind, hdirect, fun members hbody hnamed => ?_⟩
    have hobject : Schema.defaultDocument roots =
        .object (Entries.ofList (Schema.requiredDefaults roots)) := by
      refine defaultDocument_of_not_direct fun hyes => ?_
      rcases hdirect.1 hyes with ⟨target, halias⟩ | hnameless
      · rw [hbody] at halias
        cases halias
      · exact hnamed hnameless
    refine ⟨⟨_, hobject, keys_defaultDocument hfind hbody h⟩, fun hprim name hfresh hmeets => ?_⟩
    refine ⟨_, _, ?_, compile_alias hfind hbody hprim h hfresh hmeets, ?_⟩
    · have htrim : Text.trim root = root := (Header.solid_of_isName (hroot ▸ hname)).trim
      rw [Member.ofAlias, Shape.ofExpr_of_isName (hroot ▸ hname), htrim]
      rfl
    · rw [hobject]
      rfl

/-- A form of which one member is optional. -/
def ticketText : Text :=
  "interface Ticket \x7b\n  'note'?: string;\n  readonly seats: number;\n\x7d\n".toList

def ticket : Declaration := ⟨"Ticket".toList, .block [
  ⟨"note".toList, true, "string".toList, none, .named "string".toList⟩,
  ⟨"seats".toList, false, "number".toList, none, .named "number".toList⟩]⟩

def ticketRoots : List Schema :=
  [⟨"note".toList, true, none, .string⟩, ⟨"seats".toList, false, none, .number⟩]

/-- The types of the members are primitive, so that the block meets nothing but itself. -/
theorem not_meets_ticket : ¬ Meets [ticket] "Ticket".toList "Pass".toList := by
  intro hmeets
  cases hmeets with
  | @mention _ _ d _ hfind hmention =>
    have hd : d = ticket := List.mem_singleton.1 (List.mem_of_find?_eq_some hfind)
    obtain ⟨t, ht, -, q, hpart⟩ := hmention
    rw [hd] at ht
    have htypes : t = .named "string".toList ∨ t = .named "number".toList := by
      simpa [types, ticket, Shape.tree] using ht
    rcases htypes with rfl | rfl
    · cases hpart
    · cases hpart

/-- The form is no direct root. Its first document has the member that is not optional, and is that
of an alias of the block. -/
theorem isDirectRoot_ticketText :
    (compileText {} "Ticket".toList ticketText).result = .ok ticketRoots ∧
    (Schema.isDirectRoot ticketRoots = true ↔ ticket.IsAlias ∨ ticket.IsNamelessBlock) ∧
    (∃ entries, Schema.defaultDocument ticketRoots = .object entries ∧
      Entries.keys entries = ["seats".toList]) ∧
    ∃ target roots, Member.ofAlias "Ticket".toList = .ok target ∧
      (compile [ticket, ⟨"Pass".toList, .alias target⟩] {} "Pass".toList).result = .ok roots ∧
      Schema.defaultDocument roots = Schema.defaultDocument ticketRoots := by
  have hticket : (ofText {} ticketText).result = .ok [ticket] := by decide +kernel
  have hroots : (compileText {} "Ticket".toList ticketText).result = .ok ticketRoots :=
    Logged.bind_ok.2 ⟨_, hticket, by with_unfolding_all rfl⟩
  obtain ⟨declarations, d, hdeclarations, hfind, hdirect, hblock⟩ := isDirectRoot_compileText hroots
  obtain rfl := Except.ok.inj (hticket.symm.trans hdeclarations)
  obtain rfl : ticket = d := by
    have hself : find? [ticket] "Ticket".toList = some ticket := by decide
    exact Option.some.inj (hself.symm.trans hfind)
  have hnamed : ¬ ticket.IsNamelessBlock := by
    rintro ⟨m, hbody, -⟩
    cases hbody
  obtain ⟨⟨entries, hdefault, hkeys⟩, halias⟩ := hblock _ rfl hnamed
  refine ⟨hroots, hdirect, ⟨entries, hdefault, hkeys.trans (by decide)⟩, ?_⟩
  exact halias (by decide) "Pass".toList (by decide) not_meets_ticket

/-- A block of a member whose key is an empty literal. -/
def emptyKeyText : Text := "interface A \x7b\n  \"\": string;\n\x7d".toList

/-- It is taken for an alias, and its first document is no object. -/
theorem isDirectRoot_emptyKeyText :
    (ofText {} emptyKeyText).result =
      .ok [⟨"A".toList, .block [⟨[], false, "string".toList, none, .named "string".toList⟩]⟩] ∧
    (compileText {} "A".toList emptyKeyText).result = .ok [⟨[], false, none, .string⟩] ∧
    Schema.isDirectRoot [⟨[], false, none, .string⟩] = true ∧
    Schema.defaultDocument [⟨[], false, none, .string⟩] = .string [] := by
  have hdeclarations : (ofText {} emptyKeyText).result =
      .ok [⟨"A".toList, .block [⟨[], false, "string".toList, none, .named "string".toList⟩]⟩] := by
    decide +kernel
  refine ⟨hdeclarations, Logged.bind_ok.2 ⟨_, hdeclarations, ?_⟩, rfl, rfl⟩
  with_unfolding_all rfl

end Declaration

end InterfaceForms

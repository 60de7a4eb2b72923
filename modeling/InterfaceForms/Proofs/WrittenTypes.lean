import InterfaceForms.Proofs.Literals
import InterfaceForms.Proofs.PrintedLines

/-!
# Alternatives as they are written

The alternatives of a union are names, quoted literals, arrays, records and expressions in
parentheses. A literal may hold the signs that mean something elsewhere, such as bars, slashes and
brackets. Whatever it holds, an alternative closes its literals and brackets: the pass that cuts a
text holds it as it is, and no bar and no comment is found in it.

* `IsAlternative.holds`, `IsAlternative.whole`: what the pass and the searches make of an
  alternative.
* `Shape.ofExpr_joinWith`, `Shape.ofExpr_barred`: the shape of alternatives on one line, and of
  alternatives of which each follows a bar.
-/

namespace InterfaceForms

/-! ## Characters -/

/-- The characters that mean something in code. -/
def codeSigns : Text :=
  ['"', '\x27', '\x60', '\\', '/', ';', ':', '?', '|', ',', '=', '\x7b', '\x7d', '(', ')', '<',
    '>', '[', ']']

/-- A character that can stand in a name: it is neither blank nor a sign. -/
def isFree (c : Char) : Bool := !Text.isBlank c && !codeSigns.contains c

/-- A character that can stand between quotation marks. -/
def isQuotable (c : Char) : Bool := !isQuoteMark c && c ≠ '\\' && c ≠ '\n'

theorem isBlank_of_isFree {c : Char} (h : isFree c = true) : Text.isBlank c = false := by
  simp only [isFree, Bool.and_eq_true, Bool.not_eq_true'] at h
  exact h.1

theorem not_isQuoteMark_of_isFree {c : Char} (h : isFree c = true) : isQuoteMark c = false := by
  have hsign : isFree '"' = false ∧ isFree '\x27' = false ∧ isFree '\x60' = false := by decide
  have h1 := ne_of_class h hsign.1
  have h2 := ne_of_class h hsign.2.1
  have h3 := ne_of_class h hsign.2.2
  simp [isQuoteMark, h1, h2, h3]

theorem ne_of_isQuotable {mark : Char} (hmark : isQuoteMark mark = true) {v : Text}
    (hv : v.all isQuotable = true) : ∀ c ∈ v, c ≠ mark ∧ c ≠ '\\' ∧ c ≠ '\n' := by
  intro c hc
  have hchar := List.all_eq_true.1 hv c hc
  simp only [isQuotable, Bool.and_eq_true, Bool.not_eq_true', decide_eq_true_eq] at hchar
  refine ⟨?_, hchar.1.2, hchar.2⟩
  rintro rfl
  rw [hmark] at hchar
  cases hchar.1.1

theorem bracketDelta_of_isFree {c : Char} (h : isFree c = true) : bracketDelta c = 0 := by
  have hc : c ∉ ['<', '(', '[', '\x7b', '>', ')', ']', '\x7d'] :=
    not_mem_of_class h (by decide)
  simp only [List.mem_cons, List.not_mem_nil, or_false, not_or] at hc
  simp [bracketDelta, hc]

theorem bracketDelta_of_isQuoteMark {c : Char} (h : isQuoteMark c = true) :
    bracketDelta c = 0 := by
  simp only [isQuoteMark, Bool.or_eq_true, decide_eq_true_eq] at h
  rcases h with (rfl | rfl) | rfl
  all_goals rfl

/-! ## Alternatives -/

/-- An alternative of a union, as it is written. -/
inductive IsAlternative : Text → Prop
  | name {n : Text} (hne : n ≠ []) (hn : n.all isFree = true) : IsAlternative n
  | literal {mark : Char} {v : Text} (hmark : isQuoteMark mark = true)
    (hv : v.all isQuotable = true) : IsAlternative (mark :: v ++ [mark])
  | array {t : Text} : IsAlternative t → IsAlternative (t ++ ['[', ']'])
  | record {keys values : List Text} (hkeys : keys ≠ []) (hvalues : values ≠ []) :
    (∀ t ∈ keys, IsAlternative t) → (∀ t ∈ values, IsAlternative t) →
    IsAlternative ("Recor".toList ++ ('d' :: '<' :: (Text.joinWith TypeExpr.bar keys ++
      ", ".toList ++ Text.joinWith TypeExpr.bar values) ++ ['>']))
  | parens {ts : List Text} (hne : ts ≠ []) : (∀ t ∈ ts, IsAlternative t) →
    IsAlternative (TypeExpr.parenthesized (Text.joinWith TypeExpr.bar ts))

namespace Text

/-- What holds of texts one after another holds of texts that are joined. -/
theorem joinWith_of_append {P : Text → Prop} (happend : ∀ t u, P t → P u → P (t ++ u))
    {sep : Text} (hsep : P sep) {ts : List Text} (hne : ts ≠ []) (h : ∀ t ∈ ts, P t) :
    P (joinWith sep ts) := by
  induction ts with
  | nil => exact absurd rfl hne
  | cons t ts ih =>
    have ht := h t List.mem_cons_self
    cases ts with
    | nil =>
      rw [joinWith_singleton]
      exact ht
    | cons u ts =>
      rw [joinWith_cons_cons]
      exact happend _ _ (happend _ _ ht hsep)
        (ih (List.cons_ne_nil u ts) fun x hx => h x (List.mem_cons_of_mem t hx))

theorem Ends.of_all {p : Char → Bool} {t : Text} (hne : t ≠ []) (h : t.all p = true) :
    t.Ends p p := by
  have hp := List.all_eq_true.1 h
  refine ⟨?_, t.dropLast, t.getLast hne, (List.dropLast_concat_getLast hne).symm,
    hp _ (List.getLast_mem hne)⟩
  obtain ⟨c, u, rfl⟩ := List.exists_cons_of_ne_nil hne
  exact ⟨c, u, rfl, hp c List.mem_cons_self⟩

end Text

/-- The characters that an alternative begins with. -/
def opensAlternative (c : Char) : Bool := !Text.isBlank c && c ≠ '/'

/-- The characters that an alternative ends in. -/
def closesAlternative (c : Char) : Bool :=
  !Text.isBlank c && !List.contains [';', ',', '/', '|', '\x7b'] c

theorem solid_of_closes {p : Char → Bool} {t : Text} (h : t.Ends p closesAlternative)
    (hp : ∀ c, p c = true → Text.isBlank c = false) : t.Solid := by
  refine h.mono (fun c hc => by simp [hp c hc]) fun c hc => ?_
  simp only [closesAlternative, Bool.and_eq_true] at hc
  exact hc.1

theorem opensAlternative_of_isFree {c : Char} (h : isFree c = true) :
    opensAlternative c = true := by
  simp [opensAlternative, isBlank_of_isFree h, ne_of_class h (x := '/') (by decide)]

theorem closesAlternative_of_isFree {c : Char} (h : isFree c = true) :
    closesAlternative c = true := by
  have hc : c ∉ [';', ',', '/', '|', '\x7b'] := not_mem_of_class h (by decide)
  simp only [closesAlternative, isBlank_of_isFree h, List.contains_eq_mem, hc]
  rfl

theorem IsAlternative.ends {t : Text} (h : IsAlternative t) :
    t.Ends opensAlternative closesAlternative := by
  induction h with
  | name hne hn =>
    exact (Text.Ends.of_all hne hn).mono (fun _ => opensAlternative_of_isFree)
      fun _ => closesAlternative_of_isFree
  | literal hmark _ =>
    simp only [isQuoteMark, Bool.or_eq_true, decide_eq_true_eq] at hmark
    rcases hmark with (rfl | rfl) | rfl
    all_goals exact .between (by decide) (by decide) _
  | array _ ih => exact ih.append_char (by decide) ['[']
  | @record keys values _ _ _ _ _ _ =>
    exact .between (c := 'R') (d := '>') (by decide) (by decide)
      ("ecord<".toList ++ (Text.joinWith TypeExpr.bar keys ++ ", ".toList ++
        Text.joinWith TypeExpr.bar values))
  | parens _ _ _ => exact .between (by decide) (by decide) _

theorem IsAlternative.ends_joinWith {ts : List Text} (hne : ts ≠ [])
    (h : ∀ t ∈ ts, IsAlternative t) (sep : Text) :
    (Text.joinWith sep ts).Ends opensAlternative closesAlternative :=
  .joinWith hne (fun t ht => (h t ht).ends) sep

/-- The alternatives, each after a bar. -/
def Text.barred (ts : List Text) : Text := "| ".toList ++ joinWith TypeExpr.bar ts

theorem IsAlternative.ends_barred {ts : List Text} (hne : ts ≠ [])
    (h : ∀ t ∈ ts, IsAlternative t) :
    (Text.barred ts).Ends opensAlternative closesAlternative := by
  obtain ⟨u, d, hu, hd⟩ := (ends_joinWith hne h TypeExpr.bar).last
  exact ⟨⟨'|', _, rfl, by decide⟩, ⟨"| ".toList ++ u, d, by rw [Text.barred, hu]; simp, hd⟩⟩

/-- Alternatives, on one line or each after a bar, have no blanks around them. -/
theorem solid_of_alternatives {t : Text} (h : t.Ends opensAlternative closesAlternative) :
    t.Solid :=
  solid_of_closes h fun c hc => by
    simp only [opensAlternative, Bool.and_eq_true, Bool.not_eq_true'] at hc
    exact hc.1

/-! ## The pass over an alternative -/

namespace Cutter.Holds

theorem free {c : Char} (hc : isFree c = true) : Holds [c] := by
  intro s hmode hheld
  have hsigns : c ∉ ['<', '>', '(', ')', '=', '/', '\x7b', '\x7d', ';'] :=
    not_mem_of_class hc (by decide)
  have hspecial : c ∉ ['/', '\n', '\x7b', '\x7d', ';'] := not_mem_of_class hc (by decide)
  simp only [List.mem_cons, List.not_mem_nil, or_false, not_or] at hsigns
  refine ⟨c, fun _ => hsigns.2.2.2.2.1, ?_⟩
  rw [run_cons, run_nil, step_of_held hmode hheld (not_isQuoteMark_of_isFree hc) hspecial]
  simp [anglesAfter, parensAfter, hsigns, hold, nest]

theorem of_all {p : Char → Bool} (hp : ∀ c, p c = true → Holds [c]) {t : Text}
    (h : t.all p = true) : Holds t := by
  induction t with
  | nil => exact .nil
  | cons c t ih =>
    simp only [List.all_cons, Bool.and_eq_true] at h
    exact (hp c h.1).append (ih h.2)

theorem joinWith_bar {ts : List Text} (hne : ts ≠ []) (h : ∀ t ∈ ts, Holds t) :
    Holds (Text.joinWith TypeExpr.bar ts) :=
  Text.joinWith_of_append (fun _ _ => append)
    (.of_all (p := isPlain) (fun _ => plain) (by decide)) hne h

end Cutter.Holds

/-- The pass holds an alternative as it is. -/
theorem IsAlternative.holds {t : Text} (h : IsAlternative t) : Cutter.Holds t := by
  have hplain : ∀ {u : Text}, u.all isPlain = true → Cutter.Holds u :=
    .of_all fun _ => .plain
  induction h with
  | name _ hn => exact .of_all (fun _ => .free) hn
  | literal hmark hv => exact .literal hmark (ne_of_isQuotable hmark hv)
  | array _ ih => exact ih.append .square
  | record hkeys hvalues _ _ ihkeys ihvalues =>
    have hcomma : Cutter.Holds ", ".toList := hplain (by decide)
    have hargs := ((Cutter.Holds.joinWith_bar hkeys ihkeys).append hcomma).append
      (Cutter.Holds.joinWith_bar hvalues ihvalues)
    exact (hplain (by decide)).append (.arguments (by decide) hargs)
  | parens hne _ ih => exact .parenthesized (.joinWith_bar hne ih)

/-! ## The searches in an alternative -/

namespace Nesting

def run (n : Nesting) (t : Text) : Nesting := t.foldl step n

theorem run_cons (n : Nesting) (c : Char) (t : Text) : n.run (c :: t) = (n.step c).run t := rfl

theorem run_append (n : Nesting) (t u : Text) : n.run (t ++ u) = (n.run t).run u := by
  simp [run, List.foldl_append]

/-- In the text, read from `n` on, no slash stands outside of literals, and no bar at the top
level. -/
def Quiet (n : Nesting) : Text → Prop
  | [] => True
  | c :: t =>
    (n.quoting.inside = false → c ≠ '/' ∧ (n.depth = 0 → c ≠ '|')) ∧ Quiet (n.step c) t

variable {n : Nesting} {t u : Text}

theorem quiet_append : n.Quiet (t ++ u) ↔ n.Quiet t ∧ (n.run t).Quiet u := by
  induction t generalizing n with
  | nil => exact (and_iff_right trivial).symm
  | cons c t ih => rw [List.cons_append, Quiet, Quiet, ih, and_assoc, run_cons]

theorem Quiet.splitFrom (h : n.Quiet t) (u : Text) :
    Text.splitFrom '|' n (t ++ u) = (Text.splitFrom '|' (n.run t) u).modifyHead (t ++ ·) := by
  induction t generalizing n with
  | nil =>
    change Text.splitFrom '|' n u = (Text.splitFrom '|' n u).modifyHead id
    rw [List.modifyHead_id, id]
  | cons c t ih =>
    obtain ⟨hc, ht⟩ := h
    have hcut : ¬ (n.top && c = '|') = true := by
      simp only [top, Bool.and_eq_true, Bool.not_eq_true', decide_eq_true_eq, not_and]
      exact fun htop => (hc htop.1).2 htop.2
    rw [List.cons_append, Text.splitFrom, if_neg hcut, ih ht, List.modifyHead_modifyHead, run_cons]
    rfl

theorem Quiet.cutComment? (h : n.Quiet t) (u : Text) :
    Text.cutComment? n.quoting (t ++ u) =
      (Text.cutComment? (n.run t).quoting u).map fun p => (t ++ p.1, p.2) := by
  induction t generalizing n with
  | nil => simp [run]
  | cons c t ih =>
    obtain ⟨hc, ht⟩ := h
    have hcut : ¬ (!n.quoting.inside && c = '/' && (t ++ u).head? = some '/') = true := by
      simp only [Bool.and_eq_true, Bool.not_eq_true', decide_eq_true_eq, not_and]
      exact fun hslash => absurd hslash.2 (hc hslash.1).1
    rw [List.cons_append, Text.cutComment?, if_neg hcut]
    have hrest := ih (n := n.step c) ht
    rw [show (n.step c).quoting = n.quoting.step c from rfl] at hrest
    rw [hrest, Option.map_map, run_cons]
    rfl

theorem quoting_step (n : Nesting) (c : Char) : (n.step c).quoting = n.quoting.step c := rfl

theorem depth_step_outside (h : n.quoting.inside = false) (c : Char) :
    (n.step c).depth = n.depth + bracketDelta c := by
  rw [step, h]
  rfl

theorem inside_step_outside (h : n.quoting.inside = false) {c : Char}
    (hc : isQuoteMark c = false) : (n.step c).quoting.inside = false := by
  rw [quoting_step, Quoting.step_outside h]
  exact Quoting.inside_start_step hc

/-- The rest of a literal is quiet and closes it: the character read last is no backslash, so the
closing mark closes. -/
theorem quiet_literal {mark : Char} {v : Text} (hv : ∀ c ∈ v, c ≠ mark ∧ c ≠ '\\')
    (hn : n.quoting.mark? = some mark) (hlast : n.quoting.last ≠ '\\') :
    n.Quiet (v ++ [mark]) ∧ (n.run (v ++ [mark])).quoting.inside = false ∧
      (n.run (v ++ [mark])).depth = n.depth := by
  have hin : n.quoting.inside = true := by simp [Quoting.inside, hn]
  induction v generalizing n with
  | nil =>
    refine ⟨⟨fun hout => ?_, trivial⟩, ?_, ?_⟩
    · rw [hin] at hout
      cases hout
    · simp [run, step, Quoting.step, Quoting.inside, hn, hlast]
    · simp [run, step, hin]
  | cons c v ih =>
    obtain ⟨⟨hne, hback⟩, hv⟩ := List.forall_mem_cons.1 hv
    have hstep : n.step c = ⟨⟨some mark, c⟩, n.depth⟩ := by
      simp [step, Quoting.step, hn, hin, hne]
    obtain ⟨hquiet, hend⟩ := ih (n := ⟨⟨some mark, c⟩, n.depth⟩) hv rfl hback rfl
    rw [List.cons_append, Quiet, run_cons, hstep]
    refine ⟨⟨fun hout => ?_, hquiet⟩, hend⟩
    rw [hin] at hout
    cases hout

end Nesting

/-- Read outside of literals and inside `d` brackets or more, the text is quiet and closes its
literals and brackets. -/
def Text.Whole (d : Int) (t : Text) : Prop :=
  ∀ n : Nesting, n.quoting.inside = false → d ≤ n.depth →
    n.Quiet t ∧ (n.run t).quoting.inside = false ∧ (n.run t).depth = n.depth

namespace Text.Whole

variable {d : Int} {t u : Text}

theorem nil : Whole d [] := fun _ hn _ => ⟨trivial, hn, rfl⟩

theorem append (ht : Whole d t) (hu : Whole d u) : Whole d (t ++ u) := by
  intro n hn hdepth
  obtain ⟨hquiet, hn', hdepth'⟩ := ht n hn hdepth
  obtain ⟨hquiet', hn'', hdepth''⟩ := hu (n.run t) hn' (hdepth'.symm ▸ hdepth)
  rw [Nesting.quiet_append, Nesting.run_append]
  exact ⟨⟨hquiet, hquiet'⟩, hn'', hdepth''.trans hdepth'⟩

theorem mono {d' : Int} (h : Whole d t) (hd : d ≤ d') : Whole d' t :=
  fun n hn hdepth => h n hn (Int.le_trans hd hdepth)

theorem char {c : Char} (hquote : isQuoteMark c = false) (hdelta : bracketDelta c = 0)
    (hslash : c ≠ '/') (hbar : c = '|' → 0 < d) : Whole d [c] := by
  intro n hn hdepth
  refine ⟨⟨fun _ => ⟨hslash, fun hzero hc => ?_⟩, trivial⟩, Nesting.inside_step_outside hn hquote,
    ?_⟩
  · have hd := hbar hc
    omega
  · rw [Nesting.run, List.foldl_cons, List.foldl_nil, Nesting.depth_step_outside hn, hdelta]
    omega

theorem of_all {p : Char → Bool} (hp : ∀ c, p c = true → Whole d [c]) (h : t.all p = true) :
    Whole d t := by
  induction t with
  | nil => exact .nil
  | cons c t ih =>
    simp only [List.all_cons, Bool.and_eq_true] at h
    exact (hp c h.1).append (ih h.2)

theorem free {c : Char} (hc : isFree c = true) : Whole d [c] := by
  refine .char (not_isQuoteMark_of_isFree hc) (bracketDelta_of_isFree hc)
    (ne_of_class hc (by decide)) fun hbar => ?_
  exact absurd hbar (ne_of_class hc (by decide))

theorem literal {mark : Char} (hmark : isQuoteMark mark = true) {v : Text}
    (hv : ∀ c ∈ v, c ≠ mark ∧ c ≠ '\\') : Whole d (mark :: v ++ [mark]) := by
  intro n hn hdepth
  have hne : mark ≠ '/' ∧ mark ≠ '|' ∧ mark ≠ '\\' := by
    refine ⟨?_, ?_, ?_⟩
    all_goals
      rintro rfl
      exact absurd hmark (by decide)
  have hnone : n.quoting.mark? = none := by simpa [Quoting.inside] using hn
  have hopen : (n.step mark).quoting = ⟨some mark, mark⟩ := by
    simp [Nesting.step, Quoting.step, hnone, hmark]
  obtain ⟨hquiet, hend, hdepth'⟩ := Nesting.quiet_literal hv (n := n.step mark)
    (by rw [hopen]) (by rw [hopen]; exact hne.2.2)
  rw [Nesting.depth_step_outside hn, bracketDelta_of_isQuoteMark hmark] at hdepth'
  exact ⟨⟨fun _ => ⟨hne.1, fun _ => hne.2.1⟩, hquiet⟩, hend, hdepth'.trans (Int.add_zero _)⟩

theorem brackets {a b : Char} (ha : bracketDelta a = 1) (hb : bracketDelta b = -1)
    (hu : Whole (d + 1) u) : Whole d (a :: u ++ [b]) := by
  have hplain : ∀ c, bracketDelta c ≠ 0 → isQuoteMark c = false ∧ c ≠ '/' ∧ c ≠ '|' := by
    intro c hc
    refine ⟨?_, ?_, ?_⟩
    · rw [Bool.eq_false_iff]
      exact fun hmark => hc (bracketDelta_of_isQuoteMark hmark)
    all_goals
      rintro rfl
      exact hc rfl
  obtain ⟨hquotea, hslasha, hbara⟩ := hplain a (by omega)
  obtain ⟨hquoteb, hslashb, hbarb⟩ := hplain b (by omega)
  intro n hn hdepth
  have hopen := Nesting.depth_step_outside hn a
  obtain ⟨hquiet, hn', hdepth'⟩ := hu (n.step a) (Nesting.inside_step_outside hn hquotea)
    (by omega)
  rw [List.cons_append, Nesting.Quiet, Nesting.quiet_append, Nesting.run_cons, Nesting.run_append]
  have hclose := Nesting.depth_step_outside hn' b
  refine ⟨⟨fun _ => ⟨hslasha, fun _ => hbara⟩, hquiet, fun _ => ⟨hslashb, fun _ => hbarb⟩,
    trivial⟩, Nesting.inside_step_outside hn' hquoteb, ?_⟩
  rw [Nesting.run, List.foldl_cons, List.foldl_nil]
  omega

theorem space : Whole d [' '] :=
  .char (by decide) (by decide) (by decide) fun h => absurd h (by decide)

/-- Inside of brackets bars part nothing. -/
theorem bar : Whole 1 ['|'] := .char (by decide) (by decide) (by decide) fun _ => by decide

theorem joinWith_bar {ts : List Text} (hne : ts ≠ []) (h : ∀ t ∈ ts, Whole 0 t) :
    Whole 1 (Text.joinWith TypeExpr.bar ts) := by
  refine Text.joinWith_of_append (fun _ _ => append) ((space.append bar).append space) hne ?_
  exact fun t ht => (h t ht).mono (by decide)

theorem barred {ts : List Text} (hne : ts ≠ []) (h : ∀ t ∈ ts, Whole 0 t) :
    Whole 1 (Text.barred ts) :=
  (bar.append space).append (joinWith_bar hne h)

end Text.Whole

theorem IsAlternative.whole {t : Text} (h : IsAlternative t) : t.Whole 0 := by
  have hfree : ∀ {d : Int} {u : Text}, u.all isFree = true → u.Whole d :=
    .of_all fun _ => .free
  induction h with
  | name _ hn => exact hfree hn
  | literal hmark hv =>
    exact .literal hmark fun c hc =>
      ⟨(ne_of_isQuotable hmark hv c hc).1, (ne_of_isQuotable hmark hv c hc).2.1⟩
  | array _ ih =>
    exact ih.append (Text.Whole.brackets (a := '[') (b := ']') (u := []) rfl rfl .nil)
  | record hkeys hvalues _ _ ihkeys ihvalues =>
    have hcomma : Text.Whole 1 ", ".toList :=
      (Text.Whole.char (c := ',') (by decide) rfl (by decide) (by decide)).append .space
    have hargs := ((Text.Whole.joinWith_bar hkeys ihkeys).append hcomma).append
      (Text.Whole.joinWith_bar hvalues ihvalues)
    have hword : Text.Whole 0 "Recor".toList := hfree (by decide)
    exact hword.append ((Text.Whole.free (c := 'd') (by decide)).append
      (.brackets (a := '<') (b := '>') rfl rfl hargs))
  | parens hne _ ih => exact .brackets rfl rfl (.joinWith_bar hne ih)

namespace Text

/-- No comment is found in the text, and whatever follows it is searched as if it stood alone. -/
def Uncommented (t : Text) : Prop :=
  ∀ u, cutComment? .start (t ++ u) = (cutComment? .start u).map fun p => (t ++ p.1, p.2)

namespace Uncommented

variable {t u : Text}

theorem append (ht : Uncommented t) (hu : Uncommented u) : Uncommented (t ++ u) := by
  intro v
  rw [List.append_assoc, ht, hu, Option.map_map]
  simp only [Function.comp_def, List.append_assoc]

theorem cutComment? (h : Uncommented t) : Text.cutComment? .start t = none := by
  have hnone := h []
  rwa [List.append_nil] at hnone

end Uncommented

namespace Whole

variable {t : Text}

/-- Behind the text a search goes on as from the start. -/
theorem unbarred (h : Whole 0 t) : Unbarred t := by
  intro u
  obtain ⟨hquiet, hout, hdepth⟩ := h .start rfl (Int.le_refl 0)
  have hrun : Nesting.start.run t = ⟨(Nesting.start.run t).quoting, (0 : ℕ)⟩ :=
    congrArg (Nesting.mk _) hdepth
  have hstart : splitFrom '|' (Nesting.start.run t) u = splitFrom '|' .start u := by
    rw [hrun]
    exact (Passes.splitFrom (by decide)).outside 0 _ u hout
  rw [hquiet.splitFrom, hstart]

theorem uncommented {d : Int} (h : Whole d t) : Uncommented t := by
  intro u
  obtain ⟨hquiet, hout, -⟩ := h ⟨.start, d⟩ rfl (Int.le_refl d)
  have hcut := hquiet.cutComment? u
  rw [Passes.cutComment?.outside () _ u hout] at hcut
  exact hcut

end Whole

end Text

/-! ## The shape of alternatives -/

namespace Shape

variable {ts : List Text}

/-- The alternatives are those that stand between bars. -/
theorem ofExpr_of_alternatives {expr : Text}
    (hends : expr.Ends opensAlternative closesAlternative)
    (hparens : Text.insideParens? expr = none) :
    ofExpr expr = ofAlternatives (Text.alternatives expr) := by
  have htrim : Text.trim expr = expr := (solid_of_alternatives hends).trim
  have hmark : Text.dropEndWhile (· = ';') expr = expr :=
    hends.dropEndWhile fun c hc => by
      obtain rfl : c = ';' := by simpa using hc
      decide
  rw [ofExpr, bareExpr, htrim, hmark, Text.stripParens_of_bare (by rw [htrim, hparens]), htrim]

/-- Alternatives on one line, unless the first and the last parenthesis are taken for a pair. -/
theorem ofExpr_joinWith (hne : ts ≠ []) (h : ∀ t ∈ ts, IsAlternative t)
    (hparens : Text.insideParens? (Text.joinWith TypeExpr.bar ts) = none) :
    ofExpr (Text.joinWith TypeExpr.bar ts) = ofAlternatives ts := by
  rw [ofExpr_of_alternatives (IsAlternative.ends_joinWith hne h _) hparens]
  refine congrArg ofAlternatives (Text.alternatives_joinWith hne fun t ht => ?_)
  exact ⟨(h t ht).whole.unbarred, solid_of_alternatives (h t ht).ends⟩

theorem ofExpr_barred (hne : ts ≠ []) (h : ∀ t ∈ ts, IsAlternative t) :
    ofExpr (Text.barred ts) = ofAlternatives ts := by
  have hparens : Text.insideParens? (Text.barred ts) = none := rfl
  rw [ofExpr_of_alternatives (IsAlternative.ends_barred hne h) hparens]
  refine congrArg ofAlternatives ?_
  have hmap := Text.map_trim_splitFrom_joinWith hne (b := [' '])
    (fun t ht => ⟨(h t ht).whole.unbarred, solid_of_alternatives (h t ht).ends⟩) (by decide)
    Text.Whole.space.unbarred
  have hsplit : Text.splitTop '|' (Text.barred ts) =
      [] :: Text.splitFrom '|' .start ([' '] ++ Text.joinWith TypeExpr.bar ts) :=
    Text.splitFrom_sep (by decide) _
  rw [Text.alternatives, hsplit, List.map_cons, hmap]
  refine (List.filter_cons_of_neg (by decide)).trans (List.filter_eq_self.2 fun t ht => ?_)
  simpa using (h t ht).ends.ne_nil

/-- An enum or a union. -/
def isChoice : Shape → Bool
  | .enum _ | .union _ => true
  | _ => false

/-- Two alternatives or more are a choice, whatever they are. -/
theorem isChoice_ofAlternatives (h : 2 ≤ ts.length) :
    ∃ s, ofAlternatives ts = .ok s ∧ s.isChoice = true := by
  match ts, h with
  | t :: u :: ts, _ =>
    rw [ofAlternatives]
    · split
      · exact ⟨_, rfl, rfl⟩
      · exact ⟨_, rfl, rfl⟩
    · nofun
    · nofun

theorem exists_ofAlternatives (h : 2 ≤ ts.length) : ∃ shape, ofAlternatives ts = .ok shape := by
  obtain ⟨shape, hshape, -⟩ := isChoice_ofAlternatives h
  exact ⟨shape, hshape⟩

end Shape

end InterfaceForms

import InterfaceForms.Proofs.WrittenTypes

/-!
# Bracketed expressions

In a bracketed expression every literal is closed and the brackets stand in pairs. The sign `>` of
an arrow `=>` belongs to no pair, but a search that counts brackets takes it for a closing one. So
a search leaves a bracketed expression with as many brackets fewer open as there are arrows in it,
and without arrows it leaves the expression as it came.

* `Bracketed.run`: what is counted behind a bracketed expression.
* `Bracketed.cutFrom?_eq_none`: where no separator is found in it.
* `Bracketed.passes_or_closes`: whether it holds the sign that ends type arguments begun before it.
* `Bracketed.staysOpen`: no parenthesis of it closes one that was opened before it.
-/

namespace InterfaceForms

/-- The pairs of brackets that the searches in an expression count. -/
def bracketPairs : List (Char × Char) := ('\x7b', '\x7d') :: brackets

/-- A character that neither begins a literal nor opens or closes a bracket. -/
def isNeutral (c : Char) : Bool := !isQuoteMark c && bracketDelta c = 0

/-- `Bracketed lit top arrows t`: the literals of `t` are closed and hold characters of `lit`, its
brackets stand in pairs, and outside of both stand characters of `top`. There are `arrows` arrows
in it whose `>` belongs to no pair. -/
inductive Bracketed (lit : Char → Bool) : (Char → Bool) → Nat → Text → Prop
  | nil {top : Char → Bool} : Bracketed lit top 0 []
  | sign {top : Char → Bool} {n : Nat} {c : Char} {t : Text} (hc : isNeutral c = true)
    (htop : top c = true) : Bracketed lit top n t → Bracketed lit top n (c :: t)
  | arrow {top : Char → Bool} {n : Nat} {t : Text} (htop : top '=' = true) :
    Bracketed lit top n t → Bracketed lit top (n + 1) ('=' :: '>' :: t)
  | literal {top : Char → Bool} {n : Nat} {mark : Char} {v t : Text}
    (hmark : isQuoteMark mark = true) (hv : ∀ c ∈ v, c ≠ mark ∧ c ≠ '\\' ∧ lit c = true) :
    Bracketed lit top n t → Bracketed lit top n (mark :: v ++ mark :: t)
  | brackets {top : Char → Bool} {m n : Nat} {a b : Char} {u t : Text}
    (hpair : (a, b) ∈ bracketPairs) : Bracketed lit (fun _ => true) m u →
    Bracketed lit top n t → Bracketed lit top (m + n) (a :: u ++ b :: t)

theorem not_isQuoteMark_of_isNeutral {c : Char} (h : isNeutral c = true) :
    isQuoteMark c = false := by
  simp only [isNeutral, Bool.and_eq_true, Bool.not_eq_true'] at h
  exact h.1

theorem bracketDelta_of_isNeutral {c : Char} (h : isNeutral c = true) : bracketDelta c = 0 := by
  simp only [isNeutral, Bool.and_eq_true, decide_eq_true_eq] at h
  exact h.2

theorem isNeutral_of_isBlank {c : Char} (h : Text.isBlank c = true) : isNeutral c = true := by
  cases hc : isNeutral c with
  | true => rfl
  | false =>
    have hblank := Text.isBlank_of_class (p := fun c => !isNeutral c) (by decide) (c := c)
      (by simp [hc])
    rw [h] at hblank
    cases hblank

theorem bracketDelta_of_pair {a b : Char} (h : (a, b) ∈ bracketPairs) :
    bracketDelta a = 1 ∧ bracketDelta b = -1 := by
  have hall : ∀ p ∈ bracketPairs, bracketDelta p.1 = 1 ∧ bracketDelta p.2 = -1 := by decide
  exact hall _ h

theorem not_isQuoteMark_of_pair {a b : Char} (h : (a, b) ∈ bracketPairs) :
    isQuoteMark a = false ∧ isQuoteMark b = false := by
  have hall : ∀ p ∈ bracketPairs, isQuoteMark p.1 = false ∧ isQuoteMark p.2 = false := by decide
  exact hall _ h

/-! ## Searches that find nothing -/

namespace Text

variable {sep c : Char} {n : Nesting} {t u left right : Text}

theorem cutFrom?_cons_eq_none :
    cutFrom? sep n (c :: t) = none ↔
      ¬ (n.top = true ∧ c = sep) ∧ cutFrom? sep (n.step c) t = none := by
  rw [cutFrom?]
  by_cases hcut : n.top = true ∧ c = sep
  · simp [hcut]
  · rw [if_neg (by simpa using hcut), Option.map_eq_none_iff]
    exact (and_iff_right hcut).symm

theorem cutFrom?_append_eq_none :
    cutFrom? sep n (t ++ u) = none ↔
      cutFrom? sep n t = none ∧ cutFrom? sep (n.run t) u = none := by
  induction t generalizing n with
  | nil => simp [cutFrom?, Nesting.run]
  | cons c t ih =>
    rw [List.cons_append, cutFrom?_cons_eq_none, cutFrom?_cons_eq_none, ih, Nesting.run_cons,
      and_assoc]

theorem cutFrom?_of_not_mem (h : sep ∉ t) (n : Nesting) : cutFrom? sep n t = none := by
  induction t generalizing n with
  | nil => rfl
  | cons c t ih =>
    obtain ⟨hc, ht⟩ := not_or.1 (mt List.mem_cons.2 h)
    exact cutFrom?_cons_eq_none.2 ⟨fun hcut => hc hcut.2.symm, ih ht _⟩

/-- Behind a text in which it finds nothing, a search goes on. -/
theorem cutFrom?_append_of_none (h : cutFrom? sep n t = none) (u : Text) :
    cutFrom? sep n (t ++ u) =
      (cutFrom? sep (n.run t) u).map fun p => (t ++ p.1, p.2) := by
  induction t generalizing n with
  | nil => simp [Nesting.run]
  | cons c t ih =>
    obtain ⟨hcut, ht⟩ := cutFrom?_cons_eq_none.1 h
    rw [List.cons_append, cutFrom?, if_neg (by simpa using hcut), ih ht, Option.map_map,
      Nesting.run_cons]
    rfl

theorem splitFrom_of_none (h : cutFrom? sep n t = none) : splitFrom sep n t = [t] := by
  induction t generalizing n with
  | nil => rfl
  | cons c t ih =>
    obtain ⟨hcut, ht⟩ := cutFrom?_cons_eq_none.1 h
    rw [splitFrom, if_neg (by simpa using hcut), ih ht, List.modifyHead_cons]

theorem splitFrom_of_some (h : cutFrom? sep n t = some (left, right)) :
    ∃ n', splitFrom sep n t = left :: splitFrom sep n' right := by
  induction t generalizing n left with
  | nil => cases h
  | cons c t ih =>
    rw [cutFrom?] at h
    rw [splitFrom]
    split at h
    · rename_i hcut
      rw [if_pos hcut]
      obtain ⟨rfl, rfl⟩ := Prod.mk.inj (Option.some.inj h)
      exact ⟨_, rfl⟩
    · rename_i hcut
      obtain ⟨⟨left', right'⟩, hrest, heq⟩ := Option.map_eq_some_iff.1 h
      obtain ⟨rfl, rfl⟩ := Prod.mk.inj heq
      obtain ⟨n', hsplit⟩ := ih hrest
      rw [if_neg hcut, hsplit]
      exact ⟨n', rfl⟩

/-- Each character besides the separators stands in one of the parts. -/
theorem exists_mem_splitFrom (hc : c ≠ sep) (hmem : c ∈ t) :
    ∃ part ∈ splitFrom sep n t, c ∈ part := by
  induction t generalizing n with
  | nil => cases hmem
  | cons d t ih =>
    obtain ⟨first, rest, hparts⟩ := List.exists_cons_of_ne_nil (splitFrom_ne_nil sep (n.step d) t)
    have htail : c ∈ t → ∃ part ∈ first :: rest, c ∈ part := fun h => hparts ▸ ih h
    rw [splitFrom, hparts]
    split
    · rename_i hcut
      have hd : d = sep := by
        simp only [Bool.and_eq_true, decide_eq_true_eq] at hcut
        exact hcut.2
      obtain ⟨part, hpart, hin⟩ := htail ((List.mem_cons.1 hmem).resolve_left (hd ▸ hc))
      exact ⟨part, List.mem_cons_of_mem _ hpart, hin⟩
    · rw [List.modifyHead_cons]
      rcases List.mem_cons.1 hmem with rfl | hmem
      · exact ⟨c :: first, List.mem_cons_self, List.mem_cons_self⟩
      · obtain ⟨part, hpart, hin⟩ := htail hmem
        rcases List.mem_cons.1 hpart with rfl | hpart
        · exact ⟨d :: part, List.mem_cons_self, List.mem_cons_of_mem d hin⟩
        · exact ⟨part, List.mem_cons_of_mem _ hpart, hin⟩

end Text

/-! ## Literals -/

namespace Nesting

variable {n : Nesting} {mark : Char} {v : Text}

/-- In a literal no separator is found. -/
theorem cutFrom?_openLiteral (hv : ∀ c ∈ v, c ≠ mark) (hn : n.quoting.mark? = some mark)
    (sep : Char) : Text.cutFrom? sep n (v ++ [mark]) = none := by
  have htop : n.top = false := by simp [top, Quoting.inside, hn]
  induction v generalizing n with
  | nil => simp [Text.cutFrom?, htop]
  | cons c v ih =>
    obtain ⟨hne, hv⟩ := List.forall_mem_cons.1 hv
    have hstep : (n.step c).quoting.mark? = some mark := by
      simp [step, Quoting.step, hn, hne]
    rw [List.cons_append, Text.cutFrom?_cons_eq_none]
    exact ⟨fun h => by simp [htop] at h, ih hv hstep (by simp [top, Quoting.inside, hstep])⟩

theorem run_quoted (hmark : isQuoteMark mark = true) (hv : ∀ c ∈ v, c ≠ mark ∧ c ≠ '\\')
    (hn : n.quoting.inside = false) :
    (n.run (mark :: v ++ [mark])).quoting.inside = false ∧
      (n.run (mark :: v ++ [mark])).depth = n.depth ∧
      ∀ sep, isQuoteMark sep = false → Text.cutFrom? sep n (mark :: v ++ [mark]) = none := by
  have hnone : n.quoting.mark? = none := by simpa [Quoting.inside] using hn
  have hopen : (n.step mark).quoting = ⟨some mark, mark⟩ := by
    simp [step, Quoting.step, hnone, hmark]
  have hback : mark ≠ '\\' := by
    rintro rfl
    cases hmark
  obtain ⟨-, hout, hdepth⟩ := quiet_literal hv (n := n.step mark) (by rw [hopen])
    (by rw [hopen]; exact hback)
  rw [depth_step_outside hn, bracketDelta_of_isQuoteMark hmark, Int.add_zero] at hdepth
  refine ⟨hout, hdepth, fun sep hsep => ?_⟩
  rw [List.cons_append, Text.cutFrom?_cons_eq_none]
  refine ⟨?_, cutFrom?_openLiteral (fun c hc => (hv c hc).1) (by rw [hopen]) sep⟩
  rintro ⟨-, rfl⟩
  rw [hmark] at hsep
  cases hsep

end Nesting

/-! ## The searches in a bracketed expression -/

namespace Bracketed

variable {lit top : Char → Bool} {k k' : Nat} {t u : Text}

theorem append (ht : Bracketed lit top k t) (hu : Bracketed lit top k' u) :
    Bracketed lit top (k + k') (t ++ u) := by
  induction ht with
  | nil =>
    rw [Nat.zero_add]
    exact hu
  | sign hc htop _ ih => exact .sign hc htop (ih hu)
  | arrow htop _ ih =>
    rw [Nat.add_right_comm]
    exact .arrow htop (ih hu)
  | literal hmark hv _ ih =>
    rw [List.append_assoc]
    exact .literal hmark hv (ih hu)
  | brackets hpair hin _ _ ih =>
    rw [List.append_assoc, Nat.add_assoc]
    exact .brackets hpair hin (ih hu)

theorem mono {top' : Char → Bool} (h : Bracketed lit top k t)
    (htop' : ∀ c, top c = true → top' c = true) : Bracketed lit top' k t := by
  induction h with
  | nil => exact .nil
  | sign hc htop _ ih => exact .sign hc (htop' _ htop) (ih htop')
  | arrow htop _ ih => exact .arrow (htop' _ htop) (ih htop')
  | literal hmark hv _ ih => exact .literal hmark hv (ih htop')
  | brackets hpair hin _ _ ih => exact .brackets hpair hin (ih htop')

theorem of_all (h : t.all (fun c => isNeutral c && top c) = true) : Bracketed lit top 0 t := by
  induction t with
  | nil => exact .nil
  | cons c t ih =>
    simp only [List.all_cons, Bool.and_eq_true] at h
    exact .sign h.1.1 h.1.2 (ih (by simpa using h.2))

/-- Behind the expression a search is outside of literals, and each arrow counts as one bracket
closed. -/
theorem run (h : Bracketed lit top k t) {n : Nesting} (hn : n.quoting.inside = false) :
    (n.run t).quoting.inside = false ∧ (n.run t).depth = n.depth - k := by
  induction h generalizing n with
  | nil => exact ⟨hn, by simp [Nesting.run]⟩
  | sign hc _ _ ih =>
    obtain ⟨hout, hdepth⟩ := ih (Nesting.inside_step_outside hn (not_isQuoteMark_of_isNeutral hc))
    rw [Nesting.depth_step_outside hn, bracketDelta_of_isNeutral hc] at hdepth
    rw [Nesting.run_cons]
    exact ⟨hout, by omega⟩
  | @arrow _ k t _ _ ih =>
    have hequals := Nesting.inside_step_outside hn (c := '=') (by decide)
    obtain ⟨hout, hdepth⟩ := ih (Nesting.inside_step_outside hequals (c := '>') (by decide))
    have hdelta : bracketDelta '=' = 0 ∧ bracketDelta '>' = -1 := by decide
    rw [Nesting.depth_step_outside hequals, Nesting.depth_step_outside hn, hdelta.1, hdelta.2]
      at hdepth
    rw [Nesting.run_cons, Nesting.run_cons]
    exact ⟨hout, by omega⟩
  | @literal _ k mark v t hmark hv _ ih =>
    obtain ⟨hquoted, hsame, -⟩ := Nesting.run_quoted hmark (fun c hc => ⟨(hv c hc).1, (hv c hc).2.1⟩)
      hn
    obtain ⟨hout, hdepth⟩ := ih hquoted
    have htext : mark :: v ++ mark :: t = (mark :: v ++ [mark]) ++ t := by simp
    rw [htext, Nesting.run_append]
    exact ⟨hout, by omega⟩
  | @brackets _ i j a b u t hpair _ _ ihin ih =>
    obtain ⟨hmarka, hmarkb⟩ := not_isQuoteMark_of_pair hpair
    obtain ⟨hdeltaa, hdeltab⟩ := bracketDelta_of_pair hpair
    have hopen := Nesting.depth_step_outside hn a
    obtain ⟨hout, hdepth⟩ := ihin (Nesting.inside_step_outside hn hmarka)
    have hclose := Nesting.depth_step_outside hout b
    obtain ⟨hout', hdepth'⟩ := ih (Nesting.inside_step_outside hout hmarkb)
    rw [List.cons_append, Nesting.run_cons, Nesting.run_append, Nesting.run_cons]
    exact ⟨hout', by omega⟩

/-- A character is no cut inside of brackets, nor where the separator may not stand. -/
theorem not_cut {sep c : Char} {n : Nesting} (htop : top c = true)
    (hfree : 0 < n.depth ∨ top sep = false) : ¬ (n.top = true ∧ c = sep) := by
  rintro ⟨hzero, rfl⟩
  simp only [Nesting.top, Bool.and_eq_true, decide_eq_true_eq] at hzero
  rcases hfree with hfree | hfree
  · omega
  · rw [htop] at hfree
    cases hfree

/-- No separator is found where more brackets are open than there are arrows, nor, where there are
as many, a separator that does not stand outside of brackets. -/
theorem cutFrom?_eq_none {sep : Char} (hsep : isNeutral sep = true) (h : Bracketed lit top k t)
    {n : Nesting} (hn : n.quoting.inside = false)
    (hfree : (k : Int) < n.depth ∨ (k : Int) ≤ n.depth ∧ top sep = false) :
    Text.cutFrom? sep n t = none := by
  have hquote := not_isQuoteMark_of_isNeutral hsep
  have hdelta := bracketDelta_of_isNeutral hsep
  induction h generalizing n with
  | nil => rfl
  | @sign top k c t hc htop _ ih =>
    have hdepth := Nesting.depth_step_outside hn c
    rw [bracketDelta_of_isNeutral hc] at hdepth
    rw [Text.cutFrom?_cons_eq_none]
    exact ⟨not_cut htop (hfree.imp (fun h => by omega) And.right),
      ih (Nesting.inside_step_outside hn (not_isQuoteMark_of_isNeutral hc))
        (hfree.imp (fun h => by omega) fun h => ⟨by omega, h.2⟩)⟩
  | @arrow top k t htop _ ih =>
    have hequals := Nesting.inside_step_outside hn (c := '=') (by decide)
    have hdepth := Nesting.depth_step_outside hn '='
    have hdepth' := Nesting.depth_step_outside hequals '>'
    rw [show bracketDelta '=' = 0 by decide] at hdepth
    rw [show bracketDelta '>' = -1 by decide] at hdepth'
    rw [Text.cutFrom?_cons_eq_none, Text.cutFrom?_cons_eq_none]
    refine ⟨not_cut htop (hfree.imp (fun h => by omega) And.right), ?_,
      ih (Nesting.inside_step_outside hequals (by decide))
        (hfree.imp (fun h => by omega) fun h => ⟨by omega, h.2⟩)⟩
    rintro ⟨-, rfl⟩
    cases hdelta
  | @literal top k mark v t hmark hv _ ih =>
    obtain ⟨hquoted, hsame, hnone⟩ :=
      Nesting.run_quoted hmark (fun c hc => ⟨(hv c hc).1, (hv c hc).2.1⟩) hn
    have htext : mark :: v ++ mark :: t = (mark :: v ++ [mark]) ++ t := by simp
    rw [htext, Text.cutFrom?_append_eq_none]
    exact ⟨hnone sep hquote, ih hquoted (by rwa [hsame])⟩
  | @brackets top i j a b u t hpair hin _ ihin ih =>
    obtain ⟨hmarka, hmarkb⟩ := not_isQuoteMark_of_pair hpair
    obtain ⟨hdeltaa, hdeltab⟩ := bracketDelta_of_pair hpair
    have hopen := Nesting.depth_step_outside hn a
    have hina := Nesting.inside_step_outside hn hmarka
    obtain ⟨hout, hdepth⟩ := hin.run hina
    have hclose := Nesting.depth_step_outside hout b
    have hnot : ∀ {c : Char}, bracketDelta c ≠ 0 → c ≠ sep := by
      rintro c hc rfl
      exact hc hdelta
    rw [List.cons_append, Text.cutFrom?_cons_eq_none, Text.cutFrom?_append_eq_none,
      Text.cutFrom?_cons_eq_none]
    refine ⟨fun h => hnot (by omega) h.2, ihin hina (.inl (by omega)),
      fun h => hnot (by omega) h.2, ih (Nesting.inside_step_outside hout hmarkb) ?_⟩
    exact hfree.imp (fun h => by omega) fun h => ⟨by omega, h.2⟩

theorem cutTop?_eq_none {sep : Char} (hsep : isNeutral sep = true) (h : Bracketed lit top 0 t)
    (htop : top sep = false) : Text.cutTop? sep t = none :=
  h.cutFrom?_eq_none hsep rfl (.inr ⟨Int.le_refl 0, htop⟩)

/-- Behind an expression in which it does not stand the separator is found. -/
theorem cutTop?_append {sep : Char} (hsep : isNeutral sep = true)
    (h : Bracketed lit (· ≠ sep) 0 t) (u : Text) : Text.cutTop? sep (t ++ sep :: u) = some (t, u) := by
  obtain ⟨hout, hdepth⟩ := h.run (n := .start) rfl
  have hnone : Text.cutFrom? sep .start t = none := h.cutTop?_eq_none hsep (by simp)
  have htop : (Nesting.start.run t).top = true := by
    rw [Nesting.top, hout, hdepth]
    rfl
  rw [Text.cutTop?, Text.cutFrom?_append_of_none hnone, Text.cutFrom?, htop]
  simp

end Bracketed

/-! ## The end of type arguments -/

namespace Text

variable {d d' d'' : Nat} {t u : Text}

/-- The search for the sign that ends type arguments goes past the text, in front of which `d` more
angle brackets are open, and behind which `d'` more are open. -/
def PassesAngle (d d' : Nat) (t : Text) : Prop :=
  ∀ u, closeAngle? .start d (t ++ u) = (closeAngle? .start d' u).map fun p => (t ++ p.1, p.2)

/-- The search ends in the text, in front of which `d` more angle brackets are open. -/
def ClosesAngle (d : Nat) (t : Text) : Prop :=
  ∃ inner rest, ∀ u, closeAngle? .start d (t ++ u) = some (inner, rest ++ u)

theorem PassesAngle.append (ht : PassesAngle d d' t) (hu : PassesAngle d' d'' u) :
    PassesAngle d d'' (t ++ u) := by
  intro v
  rw [List.append_assoc, ht, hu, Option.map_map]
  simp only [Function.comp_def, List.append_assoc]

theorem PassesAngle.closes (ht : PassesAngle d d' t) (hu : ClosesAngle d' u) :
    ClosesAngle d (t ++ u) := by
  obtain ⟨inner, rest, hclose⟩ := hu
  exact ⟨t ++ inner, rest, fun v => by rw [List.append_assoc, ht, hclose, Option.map_some]⟩

theorem ClosesAngle.append (ht : ClosesAngle d t) (u : Text) : ClosesAngle d (t ++ u) := by
  obtain ⟨inner, rest, hclose⟩ := ht
  exact ⟨inner, rest ++ u, fun v => by rw [List.append_assoc, hclose, List.append_assoc]⟩

theorem PassesAngle.nil (d : Nat) : PassesAngle d d [] := by
  intro u
  simp

theorem closeAngle?_outside {q : Quoting} (h : q.inside = false) (d : Nat) (t : Text) :
    closeAngle? q d t = closeAngle? .start d t :=
  Passes.closeAngle?.outside d q t h

theorem closeAngle?_inside {q : Quoting} (h : q.inside = true) (c : Char) (d : Nat) (t : Text) :
    closeAngle? q d (c :: t) = (closeAngle? (q.step c) d t).map fun p => (c :: p.1, p.2) := by
  simp [closeAngle?, h]

theorem closeAngle?_of_ne {c : Char} (hopen : c ≠ '<') (hclose : c ≠ '>') (q : Quoting) (d : Nat)
    (t : Text) :
    closeAngle? q d (c :: t) = (closeAngle? (q.step c) d t).map fun p => (c :: p.1, p.2) := by
  simp [closeAngle?, hopen, hclose]

theorem PassesAngle.char {c : Char} (hmark : isQuoteMark c = false) (hopen : c ≠ '<')
    (hclose : c ≠ '>') (d : Nat) : PassesAngle d d [c] := by
  intro u
  rw [List.singleton_append, closeAngle?_of_ne hopen hclose,
    closeAngle?_outside (Quoting.inside_start_step hmark)]
  rfl

theorem PassesAngle.opening (d : Nat) : PassesAngle d (d + 1) ['<'] := by
  intro u
  have hout := closeAngle?_outside (Quoting.inside_start_step (c := '<') (by decide)) (d + 1) u
  have hstart : Quoting.start.inside = false := rfl
  simp [closeAngle?, hstart, hout]

theorem PassesAngle.closing (d : Nat) : PassesAngle (d + 1) d ['>'] := by
  intro u
  have hout := closeAngle?_outside (Quoting.inside_start_step (c := '>') (by decide)) d u
  have hstart : Quoting.start.inside = false := rfl
  simp [closeAngle?, hstart, hout]

theorem ClosesAngle.closing : ClosesAngle 0 ['>'] :=
  ⟨[], [], fun u => by simp [closeAngle?, Quoting.start, Quoting.inside]⟩

theorem PassesAngle.quoted {mark : Char} (hmark : isQuoteMark mark = true) {v : Text}
    (hv : ∀ c ∈ v, c ≠ mark ∧ c ≠ '\\') (d : Nat) : PassesAngle d d (mark :: v ++ [mark]) := by
  -- In the literal the character read last is no backslash, so the closing mark closes.
  have hinside : ∀ (w : Text) (last : Char), (∀ c ∈ w, c ≠ mark ∧ c ≠ '\\') → last ≠ '\\' →
      ∀ u, closeAngle? ⟨some mark, last⟩ d (w ++ mark :: u) =
        (closeAngle? .start d u).map fun p => (w ++ mark :: p.1, p.2) := by
    intro w
    induction w with
    | nil =>
      intro last _ hlast u
      rw [List.nil_append, closeAngle?_inside rfl,
        closeAngle?_outside (by simp [Quoting.step, Quoting.inside, hlast])]
      rfl
    | cons c w ih =>
      intro last hw _ u
      obtain ⟨⟨hne, hback⟩, hw⟩ := List.forall_mem_cons.1 hw
      have hstep : Quoting.step ⟨some mark, last⟩ c = ⟨some mark, c⟩ := by
        simp [Quoting.step, hne]
      rw [List.cons_append, closeAngle?_inside rfl, hstep, ih c hw hback, Option.map_map]
      rfl
  have hne : mark ≠ '<' ∧ mark ≠ '>' ∧ mark ≠ '\\' := by
    refine ⟨?_, ?_, ?_⟩
    all_goals
      rintro rfl
      cases hmark
  intro u
  have hstart : Quoting.start.step mark = ⟨some mark, mark⟩ := by
    simp [Quoting.step, Quoting.start, hmark]
  rw [List.cons_append, List.cons_append, closeAngle?_of_ne hne.1 hne.2.1, hstart,
    List.append_assoc, List.singleton_append, hinside v mark hv hne.2.2, Option.map_map]
  simp only [Function.comp_def, List.cons_append, List.append_assoc, List.nil_append]

end Text

namespace Bracketed

open Text

variable {lit top : Char → Bool} {k : Nat} {t : Text}

theorem ne_angle_of_isNeutral {c : Char} (h : isNeutral c = true) : c ≠ '<' ∧ c ≠ '>' := by
  constructor
  all_goals
    rintro rfl
    cases h

/-- The search for the end of type arguments goes past the expression if there are no more arrows
in it than angle brackets open before it, and otherwise it ends in the expression. -/
theorem passes_or_closes (h : Bracketed lit top k t) (d : Nat) :
    (k ≤ d → PassesAngle d (d - k) t) ∧ (d < k → ClosesAngle d t) := by
  induction h generalizing d with
  | nil => exact ⟨fun _ => .nil d, fun h => absurd h (Nat.not_lt_zero d)⟩
  | sign hc _ _ ih =>
    obtain ⟨hopen, hclose⟩ := ne_angle_of_isNeutral hc
    have hpass := PassesAngle.char (not_isQuoteMark_of_isNeutral hc) hopen hclose d
    exact ⟨fun hle => hpass.append ((ih d).1 hle), fun hlt => hpass.closes ((ih d).2 hlt)⟩
  | @arrow _ k t _ _ ih =>
    have hpass := PassesAngle.char (c := '=') (by decide) (by decide) (by decide) d
    cases d with
    | zero => exact ⟨fun hle => absurd hle (Nat.not_succ_le_zero k),
        fun _ => hpass.closes (ClosesAngle.closing.append t)⟩
    | succ d =>
      have harrow := hpass.append (.closing d)
      refine ⟨fun hle => ?_, fun hlt => harrow.closes ((ih d).2 (Nat.lt_of_succ_lt_succ hlt))⟩
      rw [Nat.add_sub_add_right]
      exact harrow.append ((ih d).1 (Nat.le_of_succ_le_succ hle))
  | @literal _ k mark v t hmark hv _ ih =>
    have hpass := PassesAngle.quoted hmark (fun c hc => ⟨(hv c hc).1, (hv c hc).2.1⟩) d
    have htext : mark :: v ++ mark :: t = (mark :: v ++ [mark]) ++ t := by simp
    rw [htext]
    exact ⟨fun hle => hpass.append ((ih d).1 hle), fun hlt => hpass.closes ((ih d).2 hlt)⟩
  | @brackets _ i j a b u t hpair _ _ ihin ih =>
    have htext : a :: u ++ b :: t = [a] ++ (u ++ ([b] ++ t)) := by simp
    rw [htext]
    by_cases hangle : (a, b) = ('<', '>')
    · obtain ⟨rfl, rfl⟩ := Prod.mk.inj hangle
      refine ⟨fun hle => ?_, fun hlt => (PassesAngle.opening d).closes ?_⟩
      · have hin := (ihin (d + 1)).1 (by omega)
        rw [show d + 1 - i = d - i + 1 by omega] at hin
        have hrest := (ih (d - i)).1 (by omega)
        rw [← Nat.sub_sub]
        exact (PassesAngle.opening d).append (hin.append ((PassesAngle.closing _).append hrest))
      · rcases Nat.lt_trichotomy i (d + 1) with hlow | rfl | hhigh
        · have hin := (ihin (d + 1)).1 (by omega)
          rw [show d + 1 - i = d - i + 1 by omega] at hin
          exact hin.closes ((PassesAngle.closing _).closes ((ih (d - i)).2 (by omega)))
        · have hin := (ihin (d + 1)).1 (Nat.le_refl _)
          rw [Nat.sub_self] at hin
          exact hin.closes (ClosesAngle.closing.append t)
        · exact ((ihin (d + 1)).2 hhigh).append _
    · have hother : ∀ p ∈ bracketPairs, p ≠ ('<', '>') →
          (p.1 ≠ '<' ∧ p.1 ≠ '>') ∧ p.2 ≠ '<' ∧ p.2 ≠ '>' := by decide
      obtain ⟨⟨hopena, hclosea⟩, hopenb, hcloseb⟩ := hother _ hpair hangle
      obtain ⟨hmarka, hmarkb⟩ := not_isQuoteMark_of_pair hpair
      have hpassa := PassesAngle.char hmarka hopena hclosea d
      have hpassb := PassesAngle.char hmarkb hopenb hcloseb (d - i)
      refine ⟨fun hle => ?_, fun hlt => hpassa.closes ?_⟩
      · have hin := (ihin d).1 (by omega)
        have hrest := (ih (d - i)).1 (by omega)
        rw [← Nat.sub_sub]
        exact hpassa.append (hin.append (hpassb.append hrest))
      · rcases Nat.lt_or_ge d i with hhigh | hlow
        · exact ((ihin d).2 hhigh).append _
        · exact ((ihin d).1 hlow).closes (hpassb.closes ((ih (d - i)).2 (by omega)))

end Bracketed

/-! ## Parentheses -/

/-- A character that is no parenthesis. -/
def isNoParen (c : Char) : Bool := c ≠ '(' && c ≠ ')'

theorem Text.staysOpen_cons {c : Char} (hopen : c ≠ '(') (hclose : c ≠ ')') (d : Nat) (t : Text) :
    staysOpen d (c :: t) = staysOpen d t := by
  simp [staysOpen, hopen, hclose]

theorem Text.staysOpen_append {t : Text} (h : t.all isNoParen = true) (d : Nat) (u : Text) :
    staysOpen d (t ++ u) = staysOpen d u := by
  induction t with
  | nil => rfl
  | cons c t ih =>
    simp only [List.all_cons, Bool.and_eq_true, isNoParen, decide_eq_true_eq] at h
    rw [List.cons_append, staysOpen_cons h.1.1 h.1.2]
    exact ih (by simpa [isNoParen] using h.2)

namespace Bracketed

variable {lit top : Char → Bool} {k : Nat} {c : Char} {t : Text}

theorem isNoParen_of_isNeutral (h : isNeutral c = true) : isNoParen c = true := by
  have hne : c ≠ '(' ∧ c ≠ ')' := by
    constructor
    all_goals
      rintro rfl
      cases h
  simp [isNoParen, hne]

/-- If no literal holds a parenthesis, the parentheses of the expression are passed in pairs. -/
theorem staysOpen (h : Bracketed lit top k t) (hlit : ∀ c, lit c = true → isNoParen c = true)
    (d : Nat) (u : Text) : Text.staysOpen d (t ++ u) = Text.staysOpen d u := by
  induction h generalizing d u with
  | nil => rfl
  | @sign _ _ c t hc _ _ ih =>
    have hall : [c].all isNoParen = true := by simp [isNoParen_of_isNeutral hc]
    exact (Text.staysOpen_append hall d (t ++ u)).trans (ih d u)
  | @arrow _ _ t _ _ ih =>
    exact (Text.staysOpen_append (t := "=>".toList) (by decide) d (t ++ u)).trans (ih d u)
  | @literal _ _ mark v t hmark hv _ ih =>
    have hmark : isNoParen mark = true := by
      simp only [isQuoteMark, Bool.or_eq_true, decide_eq_true_eq] at hmark
      rcases hmark with (rfl | rfl) | rfl
      all_goals rfl
    have hall : (mark :: v ++ [mark]).all isNoParen = true := by
      simp only [List.all_append, List.all_cons, List.all_nil, hmark, Bool.true_and, Bool.and_true]
      exact List.all_eq_true.2 fun c hc => hlit c (hv c hc).2.2
    have htext : mark :: v ++ mark :: t ++ u = (mark :: v ++ [mark]) ++ (t ++ u) := by simp
    rw [htext, Text.staysOpen_append hall, ih]
  | @brackets _ _ _ a b v t hpair _ _ ihin ih =>
    have htext : a :: v ++ b :: t ++ u = a :: (v ++ b :: (t ++ u)) := by simp
    rw [htext]
    by_cases hparen : (a, b) = ('(', ')')
    · obtain ⟨rfl, rfl⟩ := Prod.mk.inj hparen
      have hopen : ∀ w, Text.staysOpen d ('(' :: w) = Text.staysOpen (d + 1) w := fun w => by
        simp [Text.staysOpen]
      have hclose : ∀ w, Text.staysOpen (d + 1) (')' :: w) = Text.staysOpen d w := fun w => by
        simp [Text.staysOpen]
      rw [hopen, ihin, hclose, ih]
    · have hother : ∀ p ∈ bracketPairs, p ≠ ('(', ')') →
          (p.1 ≠ '(' ∧ p.1 ≠ ')') ∧ p.2 ≠ '(' ∧ p.2 ≠ ')' := by decide
      obtain ⟨⟨hopena, hclosea⟩, hopenb, hcloseb⟩ := hother _ hpair hparen
      rw [Text.staysOpen_cons hopena hclosea, ihin, Text.staysOpen_cons hopenb hcloseb, ih]

/-! ## The ends of an expression -/

theorem of_cons (hc : isNeutral c = true) (hne : c ≠ '=') (h : Bracketed lit top k (c :: t)) :
    Bracketed lit top k t := by
  cases h with
  | sign _ _ ht => exact ht
  | arrow _ _ => exact absurd rfl hne
  | literal hmark _ _ =>
    rw [not_isQuoteMark_of_isNeutral hc] at hmark
    cases hmark
  | brackets hpair _ _ =>
    have hdelta := (bracketDelta_of_pair hpair).1
    rw [bracketDelta_of_isNeutral hc] at hdelta
    cases hdelta

theorem of_concat (hc : isNeutral c = true) (h : Bracketed lit top k (t ++ [c])) :
    Bracketed lit top k t := by
  have hnone : ∀ {n : Nat} {top' : Char → Bool}, Bracketed lit top' n [] → n = 0 := by
    intro n top' hnil
    cases hnil
    rfl
  generalize hu : t ++ [c] = u at h
  induction h generalizing t with
  | nil => simp at hu
  | @sign _ n d u hd htop hrest ih =>
    cases t with
    | nil =>
      obtain ⟨-, rfl⟩ := List.cons.inj hu
      rw [hnone hrest]
      exact .nil
    | cons e t =>
      obtain ⟨rfl, rfl⟩ := List.cons.inj hu
      exact .sign hd htop (ih rfl)
  | @arrow _ n u htop hrest ih =>
    rcases List.eq_nil_or_concat' u with rfl | ⟨u, e, rfl⟩
    · have hlast : t ++ [c] = ['='] ++ ['>'] := hu
      obtain ⟨-, rfl⟩ := List.append_singleton_inj.1 hlast
      cases hc
    · have hlast : t ++ [c] = ('=' :: '>' :: u) ++ [e] := hu
      obtain ⟨rfl, rfl⟩ := List.append_singleton_inj.1 hlast
      exact .arrow htop (ih rfl)
  | @literal _ n mark v u hmark hv hrest ih =>
    rcases List.eq_nil_or_concat' u with rfl | ⟨u, e, rfl⟩
    · have hlast : t ++ [c] = (mark :: v) ++ [mark] := hu
      obtain ⟨-, rfl⟩ := List.append_singleton_inj.1 hlast
      rw [not_isQuoteMark_of_isNeutral hc] at hmark
      cases hmark
    · have hlast : t ++ [c] = (mark :: v ++ mark :: u) ++ [e] := by simpa using hu
      obtain ⟨rfl, rfl⟩ := List.append_singleton_inj.1 hlast
      exact .literal hmark hv (ih rfl)
  | @brackets _ i j a b v u hpair hin hrest _ ih =>
    rcases List.eq_nil_or_concat' u with rfl | ⟨u, e, rfl⟩
    · have hlast : t ++ [c] = (a :: v) ++ [b] := hu
      obtain ⟨-, rfl⟩ := List.append_singleton_inj.1 hlast
      have hdelta := (bracketDelta_of_pair hpair).2
      rw [bracketDelta_of_isNeutral hc] at hdelta
      cases hdelta
    · have hlast : t ++ [c] = (a :: v ++ b :: u) ++ [e] := by simpa using hu
      obtain ⟨rfl, rfl⟩ := List.append_singleton_inj.1 hlast
      exact .brackets hpair hin (ih rfl)

theorem dropEndWhile {p : Char → Bool} (hp : ∀ c, p c = true → isNeutral c = true)
    (h : Bracketed lit top k t) : Bracketed lit top k (Text.dropEndWhile p t) := by
  have hreverse : ∀ r : Text, Bracketed lit top k r.reverse →
      Bracketed lit top k (r.dropWhile p).reverse := by
    intro r
    induction r with
    | nil => exact id
    | cons c r ih =>
      intro hr
      rw [List.dropWhile_cons]
      split
      · rename_i hc
        rw [List.reverse_cons] at hr
        exact ih (of_concat (hp c hc) hr)
      · exact hr
  exact hreverse t.reverse (by rwa [List.reverse_reverse])

theorem trim (h : Bracketed lit top k t) : Bracketed lit top k (Text.trim t) := by
  refine dropEndWhile (fun _ => isNeutral_of_isBlank) ?_
  rw [Text.trimStart]
  induction t with
  | nil => exact h
  | cons c t ih =>
    rw [List.dropWhile_cons]
    split
    · rename_i hc
      refine ih (of_cons (isNeutral_of_isBlank hc) ?_ h)
      rintro rfl
      revert hc
      decide
    · exact h

end Bracketed

end InterfaceForms

import InterfaceForms.Proofs.Grammar

/-!
# Balanced code

Code in which every literal and every bracket is closed. Each reader of an expression counts some
brackets and skips literals, so it comes out of balanced code as it went in, having stopped at no
sign that stands inside brackets or literals.

* `Code`: balanced code without some signs at its top level.
* `Code.pass`: a reader that passes single characters, literals and brackets passes balanced code.
* `Code.splitFrom`, `Code.cutFrom?`, `Code.closeAngle?`, `Code.cutComment?`, `Code.staysOpen`: the
  readers of the library pass it.
-/

namespace InterfaceForms

/-! ## Characters -/

/-- A character of code that is no bracket, no mark and no end of a line. -/
def isPlain (c : Char) : Bool := isNameChar c || [' ', '|', ',', ':', '?'].contains c

theorem isPlain_of_isNameChar {c : Char} (h : isNameChar c = true) : isPlain c = true := by
  simp [isPlain, h]

theorem ne_of_class {p : Char → Bool} {c x : Char} (h : p c = true) (hx : p x = false) :
    c ≠ x := by
  rintro rfl
  rw [h] at hx
  cases hx

theorem not_mem_of_class {p : Char → Bool} {c : Char} (h : p c = true) {signs : Text}
    (hsigns : signs.all (fun x => !p x) = true) : c ∉ signs := by
  intro hmem
  have hc := List.all_eq_true.1 hsigns c hmem
  rw [h] at hc
  cases hc

theorem ne_of_isPlain {c x : Char} (h : isPlain c = true) (hx : isPlain x = false) : c ≠ x :=
  ne_of_class h hx

theorem not_isQuoteMark_of_isPlain {c : Char} (h : isPlain c = true) : isQuoteMark c = false := by
  have h1 := ne_of_isPlain h (x := '"') (by decide)
  have h2 := ne_of_isPlain h (x := '\x27') (by decide)
  have h3 := ne_of_isPlain h (x := '\x60') (by decide)
  simp [isQuoteMark, h1, h2, h3]

theorem IsLiteral.ne {v : Text} (h : IsLiteral v) {c : Char} (hc : c ∈ v) :
    c ≠ '"' ∧ c ≠ '\\' ∧ c ≠ '\n' ∧ c ≠ '(' ∧ c ≠ ')' := by
  have hchar := List.all_eq_true.1 h.chars c hc
  simpa [isLiteralChar] using hchar

/-! ## Balanced code -/

/-- The brackets of code. -/
def brackets : List (Char × Char) := [('(', ')'), ('<', '>'), ('[', ']')]

/-- `Code no t`: the literals and brackets of `t` are closed, and outside of them no character of
`no` stands. An angle bracket follows a name. -/
inductive Code : Text → Text → Prop
  | nil {no : Text} : Code no []
  | plain {no t : Text} {c : Char} (hc : isPlain c = true) (hno : c ∉ no) :
    Code no t → Code no (c :: t)
  | literal {no v t : Text} (hv : IsLiteral v) : Code no t → Code no (TypeExpr.quoted v ++ t)
  | parens {no u t : Text} : Code [] u → Code no t → Code no (TypeExpr.parenthesized u ++ t)
  | angles {no u t : Text} {c : Char} (hc : isNameChar c = true) (hno : c ∉ no) :
    Code [] u → Code no t → Code no (c :: '<' :: u ++ '>' :: t)
  | square {no t : Text} : Code no t → Code no ('[' :: ']' :: t)

namespace Code

variable {no t u : Text}

theorem append (ht : Code no t) (hu : Code no u) : Code no (t ++ u) := by
  induction ht with
  | nil => exact hu
  | plain hc hno _ ih => exact .plain hc hno (ih hu)
  | literal hv _ ih =>
    rw [List.append_assoc]
    exact .literal hv (ih hu)
  | parens hin _ _ ih =>
    rw [List.append_assoc]
    exact .parens hin (ih hu)
  | angles hc hno hin _ _ ih =>
    simp only [List.cons_append, List.append_assoc]
    exact .angles hc hno hin (ih hu)
  | square _ ih => exact .square (ih hu)

theorem mono {no' : Text} (h : Code no t) (hall : no'.all no.contains = true) : Code no' t := by
  have hno' : ∀ c ∈ no', c ∈ no := by simpa using hall
  induction h with
  | nil => exact .nil
  | plain hc hno _ ih => exact .plain hc (fun hmem => hno (hno' _ hmem)) (ih hall hno')
  | literal hv _ ih => exact .literal hv (ih hall hno')
  | parens hin _ _ ih => exact .parens hin (ih hall hno')
  | angles hc hno hin _ _ ih =>
    exact .angles hc (fun hmem => hno (hno' _ hmem)) hin (ih hall hno')
  | square _ ih => exact .square (ih hall hno')

/-- Plain characters that are not left out are code. -/
theorem of_all (h : t.all (fun c => isPlain c && !no.contains c) = true) : Code no t := by
  induction t with
  | nil => exact .nil
  | cons c t ih =>
    simp only [List.all_cons, Bool.and_eq_true, Bool.not_eq_true', List.contains_eq_mem,
      decide_eq_false_iff_not] at h
    obtain ⟨⟨hc, hno⟩, ht⟩ := h
    exact .plain hc hno (ih (by simpa using ht))

theorem quoted {v : Text} (hv : IsLiteral v) : Code no (TypeExpr.quoted v) := by
  have h : Code no (TypeExpr.quoted v ++ []) := .literal hv .nil
  rwa [List.append_nil] at h

theorem parenthesized (h : Code [] t) : Code no (TypeExpr.parenthesized t) := by
  have h : Code no (TypeExpr.parenthesized t ++ []) := .parens h .nil
  rwa [List.append_nil] at h

end Code

/-! ## Passing code -/

/-- `f` reads a text character by character and adds each with `g` to what it makes of the rest.
It counts brackets in `k`, and with the count `k` it stops at no plain character that is not in
`no` where `free k no`. Outside literals it forgets what it read. -/
structure Passes {κ α : Type} (f : κ → Quoting → Text → α) (g : Char → α → α)
    (into : Char → κ → κ) (free : κ → Text → Prop) : Prop where
  outside : ∀ k q t, q.inside = false → f k q t = f k .start t
  inside : ∀ k q c t, q.inside = true → c ≠ '(' → c ≠ ')' →
    f k q (c :: t) = g c (f k (q.step c) t)
  quote : ∀ k t, f k .start ('"' :: t) = g '"' (f k (Quoting.start.step '"') t)
  plain : ∀ k no c t, free k no → isPlain c = true → c ∉ no →
    f k .start (c :: t) = g c (f k (Quoting.start.step c) t)
  opens : ∀ k a b t, (a, b) ∈ brackets →
    f k .start (a :: t) = g a (f (into a k) (Quoting.start.step a) t)
  closes : ∀ k a b t, (a, b) ∈ brackets →
    f (into a k) .start (b :: t) = g b (f k (Quoting.start.step b) t)
  free_into : ∀ k a b, (a, b) ∈ brackets → free (into a k) []

theorem Quoting.inside_start_step {c : Char} (h : isQuoteMark c = false) :
    (Quoting.start.step c).inside = false := by
  simp [Quoting.step, Quoting.start, Quoting.inside, h]

namespace Passes

variable {κ α : Type} {f : κ → Quoting → Text → α} {g : Char → α → α} {into : Char → κ → κ}
  {free : κ → Text → Prop}

theorem literal (hf : Passes f g into free) {v : Text} (hv : IsLiteral v) (k : κ) (t : Text) :
    f k .start (TypeExpr.quoted v ++ t) = (TypeExpr.quoted v).foldr g (f k .start t) := by
  -- In the literal the character read last is no backslash, so the closing mark closes.
  have hinside : ∀ (u : Text) (last : Char), (∀ c ∈ u, c ∈ v) → last ≠ '\\' →
      f k ⟨some '"', last⟩ (u ++ '"' :: t) = u.foldr g (g '"' (f k .start t)) := by
    intro u
    induction u with
    | nil =>
      intro last _ hlast
      rw [List.nil_append, hf.inside k _ '"' t rfl (by decide) (by decide)]
      rw [hf.outside k _ t (by simp [Quoting.step, Quoting.inside, hlast])]
      rfl
    | cons c u ih =>
      intro last hu _
      obtain ⟨hquote, hback, _, hopen, hclose⟩ := hv.ne (hu c List.mem_cons_self)
      have hstep : Quoting.step ⟨some '"', last⟩ c = ⟨some '"', c⟩ := by
        simp [Quoting.step, hquote]
      rw [List.cons_append, hf.inside k _ c _ rfl hopen hclose, hstep,
        ih c (fun x hx => hu x (List.mem_cons_of_mem _ hx)) hback]
      rfl
  have hstart : Quoting.start.step '"' = ⟨some '"', '"'⟩ := rfl
  simp only [TypeExpr.quoted, List.cons_append, List.append_assoc, List.nil_append]
  rw [hf.quote, hstart, hinside v '"' (fun _ hc => hc) (by decide)]
  simp

theorem single (hf : Passes f g into free) {k : κ} {no : Text} (hk : free k no) {c : Char}
    (hc : isPlain c = true) (hno : c ∉ no) (t : Text) :
    f k .start (c :: t) = g c (f k .start t) := by
  rw [hf.plain k no c t hk hc hno]
  rw [hf.outside k _ t (Quoting.inside_start_step (not_isQuoteMark_of_isPlain hc))]

theorem opening (hf : Passes f g into free) {a b : Char} (h : (a, b) ∈ brackets) (k : κ)
    (t : Text) : f k .start (a :: t) = g a (f (into a k) .start t) := by
  have hquote : ∀ p ∈ brackets, isQuoteMark p.1 = false := by decide
  rw [hf.opens k a b t h, hf.outside _ _ t (Quoting.inside_start_step (hquote _ h))]

theorem closing (hf : Passes f g into free) {a b : Char} (h : (a, b) ∈ brackets) (k : κ)
    (t : Text) : f (into a k) .start (b :: t) = g b (f k .start t) := by
  have hquote : ∀ p ∈ brackets, isQuoteMark p.2 = false := by decide
  rw [hf.closes k a b t h, hf.outside _ _ t (Quoting.inside_start_step (hquote _ h))]

end Passes

/-- A reader comes out of balanced code as it went in. -/
theorem Code.pass {κ α : Type} {f : κ → Quoting → Text → α} {g : Char → α → α}
    {into : Char → κ → κ} {free : κ → Text → Prop} (hf : Passes f g into free) {no t : Text}
    (h : Code no t) {k : κ} (hk : free k no) (rest : Text) :
    f k .start (t ++ rest) = t.foldr g (f k .start rest) := by
  induction h generalizing k rest with
  | nil => rfl
  | plain hc hno _ ih => rw [List.cons_append, hf.single hk hc hno, ih hk, List.foldr_cons]
  | literal hv _ ih => rw [List.append_assoc, hf.literal hv, ih hk, List.foldr_append]
  | @parens _ u t _ _ ihin ih =>
    have hmem : ('(', ')') ∈ brackets := by decide
    simp only [TypeExpr.parenthesized, List.cons_append, List.append_assoc, List.nil_append]
    rw [hf.opening hmem, ihin (hf.free_into k _ _ hmem), hf.closing hmem, ih hk]
    simp
  | @angles _ u t c hc hno _ _ ihin ih =>
    have hmem : ('<', '>') ∈ brackets := by decide
    simp only [List.cons_append, List.append_assoc]
    rw [hf.single hk (isPlain_of_isNameChar hc) hno, hf.opening hmem,
      ihin (hf.free_into k _ _ hmem), hf.closing hmem, ih hk]
    simp
  | square _ ih =>
    have hmem : ('[', ']') ∈ brackets := by decide
    rw [List.cons_append, List.cons_append, hf.opening hmem, hf.closing hmem, ih hk]
    rfl

/-! ## The readers of the library -/

theorem foldr_cons_modifyHead (t : Text) (parts : List Text) :
    t.foldr (fun c parts => parts.modifyHead (c :: ·)) parts = parts.modifyHead (t ++ ·) := by
  induction t with
  | nil => cases parts <;> rfl
  | cons c t ih =>
    rw [List.foldr_cons, ih]
    cases parts <;> rfl

theorem foldr_keep (t : Text) (b : Bool) : t.foldr (fun _ b => b) b = b := by
  induction t with
  | nil => rfl
  | cons c t ih => exact ih

theorem foldr_cons_map (t : Text) (r : Option (Text × Text)) :
    t.foldr (fun c r => r.map fun p => (c :: p.1, p.2)) r = r.map fun p => (t ++ p.1, p.2) := by
  induction t with
  | nil => cases r <;> rfl
  | cons c t ih =>
    rw [List.foldr_cons, ih]
    cases r <;> rfl

theorem Quoting.step_outside {q : Quoting} (h : q.inside = false) (c : Char) :
    q.step c = Quoting.start.step c := by
  obtain ⟨mark?, last⟩ := q
  cases mark? with
  | none => rfl
  | some m => cases h

theorem bracketDelta_of_isPlain {c : Char} (h : isPlain c = true) : bracketDelta c = 0 := by
  have hne : ∀ x : Char, isPlain x = false → c ≠ x := fun x hx => ne_of_isPlain h hx
  simp [bracketDelta, hne '<' (by decide), hne '(' (by decide), hne '[' (by decide),
    hne '\x7b' (by decide), hne '>' (by decide), hne ')' (by decide), hne ']' (by decide),
    hne '\x7d' (by decide)]

namespace Passes

/-- A reader that counts all brackets does not stop at a separator in one of them. -/
def Free (sep : Char) (k : Nat) (no : Text) : Prop := 0 < k ∨ sep ∈ no

theorem not_cut_of_free {sep c : Char} {k : Nat} {no : Text} (h : Free sep k no) (hno : c ∉ no)
    (q : Quoting) : ((⟨q, k⟩ : Nesting).top && c = sep) = false := by
  rcases h with hk | hsep
  · have hne : k ≠ 0 := by omega
    simp [Nesting.top, hne]
  · have hne : c ≠ sep := by
      rintro rfl
      exact hno hsep
    simp [hne]

theorem ne_of_mem_brackets {sep a b : Char} (hsep : isPlain sep = true) (h : (a, b) ∈ brackets) :
    a ≠ sep ∧ b ≠ sep := by
  have hplain : ∀ p ∈ brackets, isPlain p.1 = false ∧ isPlain p.2 = false := by decide
  obtain ⟨ha, hb⟩ := hplain _ h
  exact ⟨fun he => ne_of_isPlain hsep ha he.symm, fun he => ne_of_isPlain hsep hb he.symm⟩

/-- A reader passes what it should if it looks at nothing but separators at the top level. -/
theorem nesting {α : Type} {f : Nesting → Text → α} {g : Char → α → α} {sep : Char}
    (hsep : isPlain sep = true) (hnil : ∀ n n', f n [] = f n' [])
    (hcongr : ∀ n n' c t, n.top = n'.top → n.step c = n'.step c → f n (c :: t) = f n' (c :: t))
    (hstep : ∀ n c t, (n.top && c = sep) = false → f n (c :: t) = g c (f (n.step c) t)) :
    Passes (fun (k : Nat) q t => f ⟨q, k⟩ t) g (fun _ k => k + 1) (Free sep) where
  outside k q t hq := by
    have hstart : Quoting.start.inside = false := rfl
    cases t with
    | nil => exact hnil _ _
    | cons c t =>
      refine hcongr _ _ c t ?_ ?_
      · simp only [Nesting.top, hq, hstart]
      · simp only [Nesting.step, hq, hstart, Quoting.step_outside hq]
  inside k q c t hq _ _ := by
    rw [hstep _ c t (by simp [Nesting.top, hq])]
    simp [Nesting.step, hq]
  quote k t := by
    have hne : '"' ≠ sep := fun h => ne_of_isPlain hsep (by decide) h.symm
    rw [hstep _ _ t (by simp [hne])]
    simp [Nesting.step, Quoting.start, Quoting.inside, bracketDelta]
  plain k no c t hk hc hno := by
    have hstart : Quoting.start.inside = false := rfl
    rw [hstep _ c t (not_cut_of_free hk hno _)]
    simp [Nesting.step, hstart, bracketDelta_of_isPlain hc]
  opens k a b t h := by
    have hdelta : ∀ p ∈ brackets, bracketDelta p.1 = 1 := by decide
    have hstart : Quoting.start.inside = false := rfl
    rw [hstep _ a t (by simp [(ne_of_mem_brackets hsep h).1])]
    simp [Nesting.step, hstart, hdelta _ h]
  closes k a b t h := by
    have hdelta : ∀ p ∈ brackets, bracketDelta p.2 = -1 := by decide
    have hstart : Quoting.start.inside = false := rfl
    have hdepth : (k : Int) + 1 + -1 = k := by omega
    rw [hstep _ b t (by simp [(ne_of_mem_brackets hsep h).2])]
    simp [Nesting.step, hstart, hdelta _ h, hdepth]
  free_into k _ _ _ := .inl (Nat.succ_pos k)

theorem splitFrom {sep : Char} (hsep : isPlain sep = true) :
    Passes (fun (k : Nat) q t => Text.splitFrom sep ⟨q, k⟩ t)
      (fun c parts => parts.modifyHead (c :: ·)) (fun _ k => k + 1) (Free sep) := by
  refine nesting hsep (fun _ _ => rfl) ?_ ?_
  · intro n n' c t htop hstep
    simp only [Text.splitFrom, htop, hstep]
  · intro n c t hcut
    simp [Text.splitFrom, hcut]

theorem cutFrom? {sep : Char} (hsep : isPlain sep = true) :
    Passes (fun (k : Nat) q t => Text.cutFrom? sep ⟨q, k⟩ t)
      (fun c r => r.map fun p => (c :: p.1, p.2)) (fun _ k => k + 1) (Free sep) := by
  refine nesting hsep (fun _ _ => rfl) ?_ ?_
  · intro n n' c t htop hstep
    simp only [Text.cutFrom?, htop, hstep]
  · intro n c t hcut
    simp [Text.cutFrom?, hcut]

theorem closeAngle? :
    Passes (fun (k : Nat) q t => Text.closeAngle? q k t)
      (fun c r => r.map fun p => (c :: p.1, p.2)) (fun c k => if c = '<' then k + 1 else k)
      (fun _ _ => True) where
  outside k q t hq := by
    have hstart : Quoting.start.inside = false := rfl
    cases t with
    | nil => rfl
    | cons c t => simp only [Text.closeAngle?, hq, hstart, Quoting.step_outside hq]
  inside k q c t hq _ _ := by simp [Text.closeAngle?, hq]
  quote k t := by simp [Text.closeAngle?, Quoting.start, Quoting.inside]
  plain k no c t _ hc _ := by
    have hopen := ne_of_isPlain hc (x := '<') (by decide)
    have hclose := ne_of_isPlain hc (x := '>') (by decide)
    simp [Text.closeAngle?, Quoting.start, Quoting.inside, hopen, hclose]
  opens k a b t h := by
    simp only [brackets, List.mem_cons, Prod.mk.injEq, List.not_mem_nil, or_false] at h
    rcases h with ⟨rfl, rfl⟩ | ⟨rfl, rfl⟩ | ⟨rfl, rfl⟩ <;>
      simp [Text.closeAngle?, Quoting.start, Quoting.inside]
  closes k a b t h := by
    simp only [brackets, List.mem_cons, Prod.mk.injEq, List.not_mem_nil, or_false] at h
    rcases h with ⟨rfl, rfl⟩ | ⟨rfl, rfl⟩ | ⟨rfl, rfl⟩ <;>
      simp [Text.closeAngle?, Quoting.start, Quoting.inside]
  free_into _ _ _ _ := trivial

theorem cutComment? :
    Passes (fun (_ : Unit) q t => Text.cutComment? q t)
      (fun c r => r.map fun p => (c :: p.1, p.2)) (fun _ k => k) (fun _ _ => True) where
  outside _ q t hq := by
    have hstart : Quoting.start.inside = false := rfl
    cases t with
    | nil => rfl
    | cons c t => simp only [Text.cutComment?, hq, hstart, Quoting.step_outside hq]
  inside _ q c t hq _ _ := by simp [Text.cutComment?, hq]
  quote _ t := by simp [Text.cutComment?]
  plain _ no c t _ hc _ := by
    have hslash := ne_of_isPlain hc (x := '/') (by decide)
    simp [Text.cutComment?, hslash]
  opens _ a b t h := by
    have hslash : ∀ p ∈ brackets, p.1 ≠ '/' := by decide
    simp [Text.cutComment?, hslash _ h]
  closes _ a b t h := by
    have hslash : ∀ p ∈ brackets, p.2 ≠ '/' := by decide
    simp [Text.cutComment?, hslash _ h]
  free_into _ _ _ _ := trivial

theorem staysOpen :
    Passes (fun (k : Nat) _ t => Text.staysOpen k t) (fun _ b => b)
      (fun c k => if c = '(' then k + 1 else k) (fun _ _ => True) where
  outside _ _ _ _ := rfl
  inside k q c t _ hopen hclose := by simp [Text.staysOpen, hopen, hclose]
  quote k t := by simp [Text.staysOpen]
  plain k no c t _ hc _ := by
    have hopen := ne_of_isPlain hc (x := '(') (by decide)
    have hclose := ne_of_isPlain hc (x := ')') (by decide)
    simp [Text.staysOpen, hopen, hclose]
  opens k a b t h := by
    simp only [brackets, List.mem_cons, Prod.mk.injEq, List.not_mem_nil, or_false] at h
    rcases h with ⟨rfl, rfl⟩ | ⟨rfl, rfl⟩ | ⟨rfl, rfl⟩ <;> simp [Text.staysOpen]
  closes k a b t h := by
    simp only [brackets, List.mem_cons, Prod.mk.injEq, List.not_mem_nil, or_false] at h
    rcases h with ⟨rfl, rfl⟩ | ⟨rfl, rfl⟩ | ⟨rfl, rfl⟩ <;> simp [Text.staysOpen]
  free_into _ _ _ _ := trivial

end Passes

namespace Code

variable {no t : Text}

theorem splitFrom (h : Code no t) {sep : Char} (hsep : isPlain sep = true) (hno : sep ∈ no)
    (rest : Text) :
    Text.splitFrom sep .start (t ++ rest) =
      (Text.splitFrom sep .start rest).modifyHead (t ++ ·) := by
  rw [← foldr_cons_modifyHead]
  exact h.pass (Passes.splitFrom hsep) (k := 0) (.inr hno) rest

theorem cutTop? (h : Code no t) {sep : Char} (hsep : isPlain sep = true) (hno : sep ∈ no)
    (rest : Text) :
    Text.cutTop? sep (t ++ rest) = (Text.cutTop? sep rest).map fun p => (t ++ p.1, p.2) := by
  rw [← foldr_cons_map]
  exact h.pass (Passes.cutFrom? hsep) (k := 0) (.inr hno) rest

theorem closeAngle? (h : Code no t) (rest : Text) :
    Text.closeAngle? .start 0 (t ++ rest) =
      (Text.closeAngle? .start 0 rest).map fun p => (t ++ p.1, p.2) := by
  rw [← foldr_cons_map]
  exact h.pass Passes.closeAngle? (k := 0) trivial rest

theorem cutComment? (h : Code no t) (rest : Text) :
    Text.cutComment? .start (t ++ rest) =
      (Text.cutComment? .start rest).map fun p => (t ++ p.1, p.2) := by
  rw [← foldr_cons_map]
  exact h.pass Passes.cutComment? (k := ()) trivial rest

theorem staysOpen (h : Code no t) (rest : Text) :
    Text.staysOpen 0 (t ++ rest) = Text.staysOpen 0 rest := by
  rw [← foldr_keep t (Text.staysOpen 0 rest)]
  exact h.pass Passes.staysOpen (k := 0) trivial rest

theorem newline_not_mem (h : Code no t) : '\n' ∉ t := by
  have hplain : ∀ c, isPlain c = true → '\n' ≠ c := fun c hc he =>
    ne_of_isPlain hc (x := '\n') (by decide) he.symm
  induction h with
  | nil => exact List.not_mem_nil
  | plain hc _ _ ih => simp [ih, hplain _ hc]
  | literal hv _ ih =>
    have hmem : '\n' ∉ _ := fun hmem => (hv.ne hmem).2.2.1 rfl
    simp [TypeExpr.quoted, ih, hmem]
  | parens _ _ ihin ih => simp [TypeExpr.parenthesized, ih, ihin]
  | angles hc _ _ _ ihin ih => simp [ih, ihin, hplain _ (isPlain_of_isNameChar hc)]
  | square _ ih => simp [ih]

end Code

end InterfaceForms

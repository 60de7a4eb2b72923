import InterfaceForms.Warning
import Mathlib.Data.List.Forall2

/-!
# Success and failure of sequences

A sequence of readings succeeds when each of its steps does, and it fails for the cause of the
first step that fails.

* `Logged.succeeds_mapM`: a list is read when each of its members is.
* `Logged.mem_of_mapM_error`: the cause why a list is not read is that of one of its members.
-/

namespace InterfaceForms

theorem exists_of_forall₂ {α β : Type} {r : α → β → Prop} {l : List α} {bs : List β}
    (h : List.Forall₂ r l bs) : ∀ b ∈ bs, ∃ a ∈ l, r a b := by
  induction h with
  | nil => nofun
  | cons hab _ ih =>
    intro b hb
    rcases List.mem_cons.1 hb with rfl | hb
    · exact ⟨_, List.mem_cons_self, hab⟩
    · obtain ⟨a, ha, h⟩ := ih b hb
      exact ⟨a, List.mem_cons_of_mem _ ha, h⟩

/-- Two lists are the same for `f` where their members are, one by one. -/
theorem forall₂_eq_on {α β : Type} {f : α → β} {l l' : List α} :
    List.Forall₂ (fun a b => f a = f b) l l' ↔ l.map f = l'.map f := by
  rw [← List.forall₂_eq_eq_eq, List.forall₂_map_left_iff, List.forall₂_map_right_iff]

/-- A sequence of readings depends on those of the members of the list only. -/
theorem mapM_congr_of_mem {m : Type → Type} [Monad m] [LawfulMonad m] {α β : Type} {f g : α → m β}
    {l : List α} (h : ∀ a ∈ l, f a = g a) : l.mapM f = l.mapM g := by
  induction l with
  | nil => rfl
  | cons a l ih =>
    rw [List.mapM_cons, List.mapM_cons, h a List.mem_cons_self,
      ih fun x hx => h x (List.mem_cons_of_mem a hx)]

namespace Logged

variable {α β : Type}

/-- The reading gives a value, perhaps after warnings. -/
def Succeeds (x : Logged α) : Prop := ∃ a, x.result = .ok a

theorem succeeds_pure (a : α) : (Pure.pure a : Logged α).Succeeds := ⟨a, rfl⟩

theorem not_succeeds_fail (e : ParseError) : ¬ (fail e : Logged α).Succeeds := by
  rintro ⟨a, h⟩
  cases h

theorem ok_bind (warnings : List Warning) (a : α) (f : α → Logged β) :
    (⟨warnings, .ok a⟩ : Logged α) >>= f = ⟨warnings ++ (f a).warnings, (f a).result⟩ := rfl

theorem map_eq (f : α → β) (x : Logged α) : f <$> x = ⟨x.warnings, x.result.map f⟩ := by
  obtain ⟨warnings, e | a⟩ := x
  · rfl
  · rw [map_eq_pure_bind, ok_bind]
    simp only [pure_eq, pure, List.append_nil, Except.map]

theorem map_injective {f : α → β} (hf : Function.Injective f) :
    Function.Injective (f <$> · : Logged α → Logged β) := by
  rintro ⟨warnings, r⟩ ⟨warnings', r'⟩ h
  simp only [map_eq, mk.injEq] at h
  obtain ⟨rfl, h⟩ := h
  cases r with
  | error e =>
    cases r' with
    | error e' =>
      cases h
      rfl
    | ok b => cases h
  | ok a =>
    cases r' with
    | error e' => cases h
    | ok b => rw [hf (Except.ok.inj h)]

/-- Of what follows only what it does after a value counts. -/
theorem bind_congr_of_ok {x : Logged α} {f g : α → Logged β}
    (h : ∀ a, x.result = .ok a → f a = g a) : x >>= f = x >>= g := by
  obtain ⟨warnings, e | a⟩ := x
  · rfl
  · rw [ok_bind, ok_bind, h a rfl]

theorem bind_error {x : Logged α} {f : α → Logged β} {e : ParseError} :
    (x >>= f).result = .error e ↔
      x.result = .error e ∨ ∃ a, x.result = .ok a ∧ (f a).result = .error e := by
  rw [bind_result]
  cases x.result with
  | error e' =>
    constructor
    · intro h
      cases h
      exact .inl rfl
    · rintro (h | ⟨_, h, _⟩)
      · cases h
        rfl
      · cases h
  | ok a =>
    constructor
    · intro h
      exact .inr ⟨a, rfl, h⟩
    · rintro (h | ⟨_, ha, h⟩)
      · cases h
      · cases ha
        exact h

theorem bind_ok {x : Logged α} {f : α → Logged β} {b : β} :
    (x >>= f).result = .ok b ↔ ∃ a, x.result = .ok a ∧ (f a).result = .ok b := by
  rw [bind_result]
  cases x.result with
  | error e =>
    constructor
    · intro h
      cases h
    · rintro ⟨_, h, _⟩
      cases h
  | ok a =>
    constructor
    · intro h
      exact ⟨a, rfl, h⟩
    · rintro ⟨_, ha, h⟩
      cases ha
      exact h

theorem succeeds_bind {x : Logged α} {f : α → Logged β} :
    (x >>= f).Succeeds ↔ ∃ a, x.result = .ok a ∧ (f a).Succeeds := by
  unfold Succeeds
  simp only [bind_ok]
  constructor
  · rintro ⟨b, a, ha, h⟩
    exact ⟨a, ha, b, h⟩
  · rintro ⟨a, ha, b, h⟩
    exact ⟨b, a, ha, h⟩

/-! ## A value that is only wrapped -/

theorem succeeds_bind_pure {x : Logged α} {f : α → β} :
    (x >>= fun a => Pure.pure (f a)).Succeeds ↔ x.Succeeds := by
  rw [succeeds_bind]
  constructor
  · rintro ⟨a, ha, _⟩
    exact ⟨a, ha⟩
  · rintro ⟨a, ha⟩
    exact ⟨a, ha, succeeds_pure _⟩

theorem succeeds_map {x : Logged α} {f : α → β} : (f <$> x).Succeeds ↔ x.Succeeds := by
  rw [map_eq_pure_bind, succeeds_bind_pure]

theorem bind_pure_error {x : Logged α} {f : α → β} {e : ParseError} :
    (x >>= fun a => Pure.pure (f a)).result = .error e ↔ x.result = .error e := by
  rw [bind_error]
  constructor
  · rintro (h | ⟨_, _, h⟩)
    · exact h
    · cases h
  · exact .inl

theorem bind_pure_ok {x : Logged α} {f : α → β} {b : β} :
    (x >>= fun a => Pure.pure (f a)).result = .ok b ↔ ∃ a, x.result = .ok a ∧ f a = b := by
  rw [bind_ok]
  constructor
  · rintro ⟨a, ha, h⟩
    cases h
    exact ⟨a, ha, rfl⟩
  · rintro ⟨a, ha, rfl⟩
    exact ⟨a, ha, rfl⟩

/-! ## Readings without warnings -/

theorem ofExcept_bind (r : Except ParseError α) (f : α → Except ParseError β) :
    ofExcept (r >>= f) = ofExcept r >>= fun a => ofExcept (f a) := by
  cases r with
  | error e => rfl
  | ok a => rfl

theorem ofExcept_mapM (f : α → Except ParseError β) (l : List α) :
    ofExcept (l.mapM f) = l.mapM fun a => ofExcept (f a) := by
  induction l with
  | nil => rfl
  | cons a l ih =>
    rw [List.mapM_cons, List.mapM_cons, ofExcept_bind, ← ih]
    refine bind_congr fun b => ?_
    rw [ofExcept_bind]
    rfl

/-! ## Lists -/

theorem mapM_of_pure {f : α → Logged β} {g : α → β} {l : List α}
    (h : ∀ a ∈ l, f a = Pure.pure (g a)) : l.mapM f = Pure.pure (l.map g) := by
  induction l with
  | nil => rfl
  | cons a l ih =>
    rw [List.mapM_cons, h a List.mem_cons_self, ih fun x hx => h x (List.mem_cons_of_mem a hx)]
    simp

theorem mapM_map {γ : Type} (f : β → γ) (g : α → Logged β) (l : List α) :
    (l.mapM fun a => f <$> g a) = List.map f <$> l.mapM g := by
  induction l with
  | nil => simp
  | cons a l ih => simp [List.mapM_cons, ih]

theorem mapM_ok {f : α → Logged β} {l : List α} {bs : List β} :
    (l.mapM f).result = .ok bs ↔ List.Forall₂ (fun a b => (f a).result = .ok b) l bs := by
  induction l generalizing bs with
  | nil =>
    rw [List.mapM_nil, List.forall₂_nil_left_iff]
    constructor
    · intro h
      cases h
      rfl
    · rintro rfl
      rfl
  | cons a l ih =>
    rw [List.mapM_cons, bind_ok, List.forall₂_cons_left_iff]
    constructor
    · rintro ⟨b, hb, h⟩
      obtain ⟨bs', hbs, rfl⟩ := bind_pure_ok.1 h
      exact ⟨b, bs', hb, ih.1 hbs, rfl⟩
    · rintro ⟨b, bs', hb, hbs, rfl⟩
      exact ⟨b, hb, bind_pure_ok.2 ⟨bs', ih.2 hbs, rfl⟩⟩

theorem mem_of_mapM_ok {f : α → Logged β} {l : List α} {bs : List β}
    (h : (l.mapM f).result = .ok bs) : ∀ b ∈ bs, ∃ a ∈ l, (f a).result = .ok b :=
  exists_of_forall₂ (mapM_ok.1 h)

theorem succeeds_mapM {f : α → Logged β} {l : List α} :
    (l.mapM f).Succeeds ↔ ∀ a ∈ l, (f a).Succeeds := by
  induction l with
  | nil => simpa using succeeds_pure _
  | cons a l ih =>
    rw [List.mapM_cons, succeeds_bind, List.forall_mem_cons]
    constructor
    · rintro ⟨b, hb, h⟩
      exact ⟨⟨b, hb⟩, ih.1 (succeeds_bind_pure.1 h)⟩
    · rintro ⟨⟨b, hb⟩, h⟩
      exact ⟨b, hb, succeeds_bind_pure.2 (ih.2 h)⟩

theorem mem_of_mapM_error {f : α → Logged β} {l : List α} {e : ParseError}
    (h : (l.mapM f).result = .error e) : ∃ a ∈ l, (f a).result = .error e := by
  induction l with
  | nil => cases h
  | cons a l ih =>
    rw [List.mapM_cons, bind_error] at h
    rcases h with h | ⟨b, _, h⟩
    · exact ⟨a, List.mem_cons_self, h⟩
    · obtain ⟨a', ha', h'⟩ := ih (bind_pure_error.1 h)
      exact ⟨a', List.mem_cons_of_mem _ ha', h'⟩

end Logged

theorem Except.bind_ok {ε α β : Type} {x : Except ε α} {f : α → Except ε β} {b : β} :
    x >>= f = .ok b ↔ ∃ a, x = .ok a ∧ f a = .ok b := by
  cases x with
  | error e =>
    constructor
    · intro h
      cases h
    · rintro ⟨_, h, _⟩
      cases h
  | ok a =>
    constructor
    · intro h
      exact ⟨a, rfl, h⟩
    · rintro ⟨_, ha, h⟩
      cases ha
      exact h

theorem Except.mapM_ok {ε α β : Type} {f : α → Except ε β} {l : List α} {bs : List β} :
    l.mapM f = .ok bs ↔ List.Forall₂ (fun a b => f a = .ok b) l bs := by
  induction l generalizing bs with
  | nil =>
    rw [List.mapM_nil, List.forall₂_nil_left_iff]
    constructor
    · intro h
      cases h
      rfl
    · rintro rfl
      rfl
  | cons a l ih =>
    rw [List.mapM_cons, Except.bind_ok, List.forall₂_cons_left_iff]
    constructor
    · rintro ⟨b, hb, h⟩
      obtain ⟨bs', hbs, h⟩ := Except.bind_ok.1 h
      cases h
      exact ⟨b, bs', hb, ih.1 hbs, rfl⟩
    · rintro ⟨b, bs', hb, hbs, rfl⟩
      exact ⟨b, hb, Except.bind_ok.2 ⟨bs', ih.2 hbs, rfl⟩⟩

theorem Except.mem_of_mapM_ok {ε α β : Type} {f : α → Except ε β} {l : List α} {bs : List β}
    (h : l.mapM f = .ok bs) : ∀ b ∈ bs, ∃ a ∈ l, f a = .ok b :=
  exists_of_forall₂ (Except.mapM_ok.1 h)

end InterfaceForms

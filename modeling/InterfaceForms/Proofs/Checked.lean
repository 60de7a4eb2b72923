import InterfaceForms.Warning
import InterfaceForms.Proofs.Entries
import InterfaceForms.Proofs.Logged

/-!
# Checked readings

A reading may rely on something that holds wherever it does so: that a key has an entry, that a
counter is not zero, that the bounds of a slice are in order. A checked reading looks whether it
holds, and stops with a trap if it does not. It has no trap to report when it is the lifting of a
reading without checks. Numbers have no upper bound here.

* `Checked.entry`, `Checked.minus`, `Checked.suffix`: what may stop with a trap.
* `Checked.result_lift`: a lifted reading has no trap.
* `Checked.Lifted.bind`: a reading in steps is without a trap when each step is.
-/

namespace InterfaceForms

/-- Why a checked reading stops. -/
inductive Trap
  /-- A key that must have an entry has none. -/
  | key (key : Text)
  /-- A counter at zero would be counted down. -/
  | counter
  /-- The bounds of a slice are out of order, or one is outside or inside a character. -/
  | slice (low high : Nat)
  /-- There would be more calls inside each other than are allowed. -/
  | calls
  deriving DecidableEq, Repr

/-- The warnings of a reading, and then a cause of failure, a trap or a value. -/
abbrev Checked := ExceptT Trap Logged

namespace Checked

variable {α β : Type}

/-! ## What may stop with a trap -/

/-- The value of a key that must have an entry. -/
def entry (key : Text) (entries : Entries α) : Except Trap α :=
  match Entries.get? key entries with
  | some value => .ok value
  | none => .error (.key key)

theorem entry_of_get? {key : Text} {entries : Entries α} {value : α}
    (h : Entries.get? key entries = some value) : entry key entries = .ok value := by
  rw [entry, h]

/-- Changes the value of a key that must have an entry. -/
def edit (key : Text) (f : α → α) (entries : Entries α) : Except Trap (Entries α) := do
  let _ ← entry key entries
  return Entries.update key f entries

theorem edit_of_get? {key : Text} {entries : Entries α} {value : α}
    (h : Entries.get? key entries = some value) (f : α → α) :
    edit key f entries = .ok (Entries.update key f entries) := by
  rw [edit, entry_of_get? h]
  rfl

/-- Takes a number from one that is not less. -/
def minus (a b : Nat) : Except Trap Nat := if b ≤ a then .ok (a - b) else .error .counter

theorem minus_add (a b : Nat) : minus (a + b) b = .ok a := by
  rw [minus, if_pos (Nat.le_add_left b a), Nat.add_sub_cancel]

/-- The end of a list from a position on. -/
def suffix (start : Nat) (l : List α) : Except Trap (List α) :=
  if start ≤ l.length then .ok (l.drop start) else .error (.slice start l.length)

theorem suffix_of_idxOf? [BEq α] [LawfulBEq α] [DecidableEq α] {a : α} {l : List α} {start : Nat}
    (h : l.idxOf? a = some start) : suffix start l = .ok (l.dropWhile (· ≠ a)) := by
  obtain ⟨hlt, hget, hbefore⟩ := List.idxOf?_eq_some_iff.1 h
  have hfirst : l.findIdx (fun b => !decide (b ≠ a)) = start := by
    rw [List.findIdx_eq hlt]
    simpa using ⟨hget, hbefore⟩
  rw [suffix, if_pos (Nat.le_of_lt hlt), List.dropWhile_eq_drop_findIdx_not, hfirst]

/-! ## Readings without traps -/

/-- What does not stop at a trap is only a value. -/
@[simp] theorem ok_bind (a : α) (f : α → Checked β) :
    (liftM (Except.ok a : Except Trap α) >>= f) = f a :=
  pure_bind a f

/-- What is lifted gives a value or a cause, and no trap. -/
theorem result_lift (x : Logged α) : (liftM x : Checked α).run.result = x.result.map .ok := by
  show (Except.ok <$> x : Logged (Except Trap α)).result = _
  rw [Logged.map_eq]

theorem bind_congr_of_ok {x : Logged α} {f g : α → Checked β}
    (h : ∀ a, x.result = .ok a → f a = g a) :
    (liftM x >>= f : Checked β) = liftM x >>= g := by
  have hrun : ∀ k : α → Checked β, (liftM x >>= k : Checked β).run = x >>= fun a => (k a).run :=
    fun k => ExceptT.run_bind_lift x k
  refine ExceptT.ext ?_
  rw [hrun, hrun]
  exact Logged.bind_congr_of_ok fun a ha => congrArg ExceptT.run (h a ha)

theorem mapM_lift (f : α → Logged β) (l : List α) :
    l.mapM (fun a => (liftM (f a) : Checked β)) = liftM (l.mapM f) := by
  induction l with
  | nil => rw [List.mapM_nil, List.mapM_nil, liftM_pure]
  | cons a l ih => simp only [List.mapM_cons, ih, liftM_bind, liftM_pure]

/-- The checked reading is one without checks, so that it never stops at a trap. -/
def Lifted (x : Checked α) : Prop := ∃ r : Logged α, x = liftM r

theorem lifted_pure (a : α) : (pure a : Checked α).Lifted := ⟨pure a, (liftM_pure a).symm⟩

theorem Lifted.bind {x : Checked α} {f : α → Checked β} (hx : x.Lifted)
    (hf : ∀ a, (f a).Lifted) : (x >>= f).Lifted := by
  obtain ⟨r, rfl⟩ := hx
  choose g hg using hf
  refine ⟨r >>= g, ?_⟩
  rw [liftM_bind]
  exact bind_congr hg

theorem Lifted.mapM {f : α → Checked β} {l : List α} (h : ∀ a ∈ l, (f a).Lifted) :
    (l.mapM f).Lifted := by
  induction l with
  | nil => exact lifted_pure _
  | cons a l ih =>
    rw [List.mapM_cons]
    refine (h a List.mem_cons_self).bind fun b => ?_
    exact (ih fun x hx => h x (List.mem_cons_of_mem a hx)).bind fun _ => lifted_pure _

end Checked

end InterfaceForms

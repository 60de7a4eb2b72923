import InterfaceForms.Proofs.Entries
import InterfaceForms.Edit
import Mathlib.Data.List.Perm.Subperm
import Mathlib.Order.Bounds.Basic

/-!
# Fresh keys of a record

A new entry is tried under one number after another, from the number above that of the entries,
until a key is free. Different numbers have different keys, so that among one number more than
there are entries one has a free key, and the search ends.

* `Edit.Seeks`: the search from a number, with the keys that it finds taken.
* `Edit.addEntry_fresh`: what a new entry is called, and where it stands.
-/

namespace InterfaceForms

theorem Text.ofNat_injective : Function.Injective Text.ofNat := by
  intro m n h
  have hvalue := congrArg (fun digits => Nat.ofDigitChars 10 digits 0) h
  simpa [Text.ofNat] using hvalue

namespace Edit

theorem numberedKey_injective : Function.Injective numberedKey := by
  intro m n h
  exact Text.ofNat_injective (List.append_cancel_left h)

/-- `Seeks entries n bumps m`: the search for a free key starts at the number `n`, goes on from
`bumps` numbers whose keys are taken, each time to the next number, and ends at the number `m`,
whose key is free. -/
inductive Seeks (entries : Entries Value) : Nat → Nat → Nat → Prop
  | free {n : Nat} (h : numberedKey n ∉ Entries.keys entries) : Seeks entries n 0 n
  | taken {n bumps m : Nat} (h : numberedKey n ∈ Entries.keys entries) :
    Seeks entries (n + 1) bumps m → Seeks entries n (bumps + 1) m

/-- The numbers from `n` on whose keys are free. -/
def freeNumbers (entries : Entries Value) (n : Nat) : Set Nat :=
  {m | n ≤ m ∧ numberedKey m ∉ Entries.keys entries}

variable {entries : Entries Value} {n m bumps : Nat}

theorem Seeks.eq_add (h : Seeks entries n bumps m) : m = n + bumps := by
  induction h with
  | free _ => rfl
  | taken _ _ ih => omega

/-- The search passes over no free key. -/
theorem Seeks.isLeast (h : Seeks entries n bumps m) : IsLeast (freeNumbers entries n) m := by
  induction h with
  | free hfree => exact ⟨⟨le_rfl, hfree⟩, fun _ hm => hm.1⟩
  | @taken n bumps m htaken _ ih =>
    obtain ⟨⟨hle, hfree⟩, hleast⟩ := ih
    refine ⟨⟨by omega, hfree⟩, ?_⟩
    rintro m' ⟨hle', hfree'⟩
    rcases hle'.eq_or_lt with rfl | hlt
    · exact absurd htaken hfree'
    · exact hleast ⟨hlt, hfree'⟩

/-- Where one of the next keys is free the search ends before it has passed them all. -/
theorem exists_seeks {k : Nat} (hm : m ∈ freeNumbers entries n) (hk : m ≤ n + k) :
    ∃ bumps ≤ k, ∃ m', Seeks entries n bumps m' := by
  obtain ⟨hle, hfree⟩ := hm
  induction k generalizing n with
  | zero =>
    obtain rfl : m = n := by omega
    exact ⟨0, le_rfl, m, .free hfree⟩
  | succ k ih =>
    by_cases htaken : numberedKey n ∈ Entries.keys entries
    · have hne : n ≠ m := by
        rintro rfl
        exact hfree htaken
      obtain ⟨bumps, hbumps, m', hseeks⟩ := ih (n := n + 1) (by omega) (by omega)
      exact ⟨bumps + 1, by omega, m', .taken htaken hseeks⟩
    · exact ⟨0, by omega, n, .free htaken⟩

/-- Of one key more than there are entries one is free. -/
theorem exists_free (entries : Entries Value) (n : Nat) :
    ∃ m ∈ freeNumbers entries n, m ≤ n + entries.length := by
  by_contra hnone
  -- otherwise there are more distinct keys of entries than entries
  have htaken : ∀ key ∈ (List.range' n (entries.length + 1)).map numberedKey,
      key ∈ Entries.keys entries := by
    intro key hkey
    obtain ⟨m, hm, rfl⟩ := List.mem_map.1 hkey
    obtain ⟨hle, hlt⟩ := List.mem_range'_1.1 hm
    by_contra hfree
    exact hnone ⟨m, ⟨hle, hfree⟩, by omega⟩
  have hnodup : ((List.range' n (entries.length + 1)).map numberedKey).Nodup :=
    (List.nodup_range' ..).map numberedKey_injective
  have hlen := (List.subperm_of_subset hnodup htaken).length_le
  simp only [List.length_map, List.length_range', Entries.keys] at hlen
  omega

/-- The number of a new entry is the first one, above that of the entries, whose key is free. -/
theorem freshNumber_isLeast (entries : Entries Value) :
    IsLeast (freeNumbers entries (entries.length + 1)) (freshNumber entries) := by
  obtain ⟨free, ⟨hle, hfree⟩, hbound⟩ := exists_free entries (entries.length + 1)
  have hsome : ((List.range' (entries.length + 1) (entries.length + 1)).find? fun m =>
      !Entries.contains (numberedKey m) entries).isSome := by
    rw [List.find?_isSome]
    refine ⟨free, List.mem_range'_1.2 ⟨hle, by omega⟩, ?_⟩
    simpa [← Entries.contains_iff] using hfree
  obtain ⟨m, hm⟩ := Option.isSome_iff_exists.1 hsome
  have heq : freshNumber entries = m := by rw [freshNumber, hm, Option.getD_some]
  obtain ⟨hfree', hmem, hbefore⟩ := List.find?_range'_eq_some.1 hm
  rw [heq]
  refine ⟨⟨(List.mem_range'_1.1 hmem).1, ?_⟩, ?_⟩
  · simpa [← Entries.contains_iff] using hfree'
  · rintro m' ⟨hle', hfree''⟩
    by_contra hlt
    have htaken := hbefore m' hle' (by omega)
    simp only [Bool.not_not, Entries.contains_iff] at htaken
    exact hfree'' htaken

/-- The search for the key of a new entry ends after no more bumps than there are entries, at the
least free number; the entry comes last with the default value, and the others stay as they are. -/
theorem addEntry_fresh (item : Schema) (entries : Entries Value) :
    ∃ bumps m, Seeks entries (entries.length + 1) bumps m ∧ bumps ≤ entries.length ∧
      m ≤ 2 * entries.length + 1 ∧ IsLeast (freeNumbers entries (entries.length + 1)) m ∧
      addEntry item (.object entries) =
        .ok (numberedKey m, .object (entries ++ [(numberedKey m, item.default)])) := by
  obtain ⟨free, hmem, hbound⟩ := exists_free entries (entries.length + 1)
  obtain ⟨bumps, hbumps, m, hseeks⟩ := exists_seeks hmem hbound
  have hadd := hseeks.eq_add
  have hfresh : freshNumber entries = m := (freshNumber_isLeast entries).unique hseeks.isLeast
  refine ⟨bumps, m, hseeks, hbumps, by omega, hseeks.isLeast, ?_⟩
  rw [← hfresh]
  rfl

/-- Two keys that a new entry would get are taken. -/
example : (addEntry (.anonymous .number)
    (.object [("key_3".toList, .null), ("key_4".toList, .null)])).map (·.1) =
      .ok "key_5".toList := by
  rfl

end Edit

end InterfaceForms

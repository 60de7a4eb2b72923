import InterfaceForms.Expression.Nesting
import InterfaceForms.Proofs.Checked

/-!
# Slices of a text

A position in a text counts the bytes before it in the UTF-8 form of the text. A slice is what
stands between two positions, each of which has to be between two characters or at an end.

* `Text.exists_slice`: the slices that there are.
* `Text.partsAt_eq`: the separators at the top level of a text part it in slices.
* `Text.firstAt?_eq`: the position of the first separator.
* `Text.closing?_eq`: as angle brackets are read, there are never fewer than none open.
-/

namespace InterfaceForms

namespace Text

variable {t u before rest : Text} {low high n : Nat}

/-- The number of bytes of the text. -/
def size : Text → Nat
  | [] => 0
  | c :: t => c.utf8Size + size t

@[simp] theorem size_nil : size [] = 0 := rfl

@[simp] theorem size_cons (c : Char) (t : Text) : size (c :: t) = c.utf8Size + size t := rfl

@[simp] theorem size_append (t u : Text) : size (t ++ u) = size t + size u := by
  induction t with
  | nil => rw [List.nil_append, size_nil, Nat.zero_add]
  | cons c t ih => rw [List.cons_append, size_cons, size_cons, ih, Nat.add_assoc]

theorem size_eq_zero : size t = 0 ↔ t = [] := by
  cases t with
  | nil => simp
  | cons c t =>
    have := c.utf8Size_pos
    simp
    omega

/-- The text before a position and the text after it, if it is between two characters. -/
def cutAt? : Nat → Text → Option (Text × Text)
  | 0, t => some ([], t)
  | _ + 1, [] => none
  | n + 1, c :: t =>
    if c.utf8Size ≤ n + 1 then
      (cutAt? (n + 1 - c.utf8Size) t).map fun (before, rest) => (c :: before, rest)
    else none

theorem cutAt?_size (before rest : Text) :
    cutAt? (size before) (before ++ rest) = some (before, rest) := by
  induction before with
  | nil => rw [size_nil, List.nil_append, cutAt?]
  | cons c before ih =>
    obtain ⟨k, hk⟩ := Nat.exists_eq_add_one.2 c.utf8Size_pos
    have hsize : size (c :: before) = size before + k + 1 := by
      rw [size_cons, hk]
      omega
    rw [hsize, List.cons_append, cutAt?, if_pos (by omega), hk, Nat.add_assoc, Nat.add_sub_cancel,
      ih]
    rfl

theorem cutAt?_eq_some :
    cutAt? n t = some (before, rest) ↔ t = before ++ rest ∧ size before = n := by
  constructor
  · intro h
    induction t generalizing n before with
    | nil =>
      cases n with
      | zero =>
        cases h
        exact ⟨rfl, rfl⟩
      | succ n => cases h
    | cons c t ih =>
      cases n with
      | zero =>
        cases h
        exact ⟨rfl, rfl⟩
      | succ n =>
        rw [cutAt?] at h
        split at h
        · rename_i hle
          obtain ⟨⟨before, rest⟩, hcut, h⟩ := Option.map_eq_some_iff.1 h
          cases h
          obtain ⟨rfl, hsize⟩ := ih hcut
          refine ⟨rfl, ?_⟩
          rw [size_cons, hsize]
          omega
        · cases h
  · rintro ⟨rfl, rfl⟩
    exact cutAt?_size before rest

/-- The position is between two characters of the text or at an end. -/
def IsBoundary (t : Text) (n : Nat) : Prop := ∃ before rest, t = before ++ rest ∧ size before = n

/-- The text between two positions. -/
def slice (low high : Nat) (t : Text) : Except Trap Text :=
  match cutAt? high t with
  | none => .error (.slice low high)
  | some (front, _) =>
    match cutAt? low front with
    | none => .error (.slice low high)
    | some (_, part) => .ok part

theorem slice_append (before part rest : Text) :
    slice (size before) (size before + size part) (before ++ (part ++ rest)) = .ok part := by
  rw [← size_append, ← List.append_assoc, slice, cutAt?_size]
  dsimp only
  rw [cutAt?_size]

theorem slice_eq_ok : slice low high t = .ok u ↔
    ∃ before rest, t = before ++ (u ++ rest) ∧ size before = low ∧
      size before + size u = high := by
  constructor
  · intro h
    unfold slice at h
    split at h
    · cases h
    · rename_i front rest hfront
      split at h
      · cases h
      · rename_i before part hpart
        cases h
        obtain ⟨rfl, hhigh⟩ := cutAt?_eq_some.1 hfront
        obtain ⟨rfl, hlow⟩ := cutAt?_eq_some.1 hpart
        rw [size_append] at hhigh
        exact ⟨before, rest, by rw [List.append_assoc], hlow, hhigh⟩
  · rintro ⟨before, rest, rfl, rfl, rfl⟩
    exact slice_append before u rest

/-- There is a slice when the bounds are in order and not beyond the text, and neither is inside a
character. -/
theorem exists_slice : (∃ u, slice low high t = .ok u) ↔
    low ≤ high ∧ high ≤ size t ∧ IsBoundary t low ∧ IsBoundary t high := by
  constructor
  · rintro ⟨u, h⟩
    obtain ⟨before, rest, rfl, rfl, rfl⟩ := slice_eq_ok.1 h
    refine ⟨Nat.le_add_right _ _, ?_, ⟨before, u ++ rest, rfl, rfl⟩, before ++ u, rest, ?_, ?_⟩
    · rw [size_append, size_append]
      omega
    · rw [List.append_assoc]
    · rw [size_append]
  · rintro ⟨hle, -, ⟨before, rest, rfl, rfl⟩, front, rest', heq, rfl⟩
    rcases List.append_eq_append_iff.1 heq with ⟨part, rfl, rfl⟩ | ⟨part, rfl, rfl⟩
    · refine ⟨part, ?_⟩
      rw [size_append]
      exact slice_append before part rest'
    · -- The bounds are in order, so nothing is between them.
      rw [size_append] at hle
      obtain rfl := size_eq_zero.1 (Nat.le_zero.1 (Nat.le_of_add_le_add_left hle))
      refine ⟨[], ?_⟩
      rw [List.append_nil]
      exact slice_append front [] rest

/-- The character é has two bytes. -/
example : slice 1 2 ['é', 'a'] = .error (.slice 1 2) := rfl

example : slice 2 3 ['é', 'a'] = .ok ['a'] := rfl

/-- The text from a position on. -/
def sliceFrom (low : Nat) (t : Text) : Except Trap Text := slice low (size t) t

theorem sliceFrom_append (before rest : Text) :
    sliceFrom (size before) (before ++ rest) = .ok rest := by
  have h := slice_append before rest []
  rwa [List.append_nil, ← size_append] at h

/-- The text up to a position. -/
def sliceTo (high : Nat) (t : Text) : Except Trap Text := slice 0 high t

theorem sliceTo_append (before rest : Text) :
    sliceTo (size before) (before ++ rest) = .ok before := by
  have h := slice_append [] before rest
  rwa [size_nil, Nat.zero_add] at h

/-- The text without its first and last character, of which each has one byte. -/
theorem slice_inside {c d : Char} (hc : c.utf8Size = 1) (hd : d.utf8Size = 1) (t : Text) :
    (do slice 1 (← Checked.minus (size (c :: (t ++ [d]))) 1) (c :: (t ++ [d]))) = .ok t := by
  have hsize : size (c :: (t ++ [d])) = size [c] + size t + 1 := by
    rw [size_cons, size_append, size_cons, size_cons, size_nil, hd]
    omega
  have hlow : size [c] = 1 := hc
  have hslice := slice_append [c] t [d]
  rw [hlow] at hslice
  rw [hsize, Checked.minus_add, hlow]
  exact hslice

/-! ## Separators at the top level -/

/-- The positions of the separators at the top level, read from the state `n` at the position
`start` on. -/
def positionsFrom (sep : Char) (n : Nesting) (start : Nat) : Text → List Nat
  | [] => []
  | c :: t =>
    let later := positionsFrom sep (n.step c) (start + c.utf8Size) t
    if n.top && c = sep then start :: later else later

def positions (sep : Char) (t : Text) : List Nat := positionsFrom sep .start 0 t

/-- The parts of the text between separators at the positions, from `start` on. -/
def parts (sep : Char) (t : Text) (start : Nat) : List Nat → Except Trap (List Text)
  | [] => return [← sliceFrom start t]
  | stop :: stops => do
    let part ← slice start stop t
    return part :: (← parts sep t (stop + sep.utf8Size) stops)

/-- The text before the part being read has been parted, and of this part `part` has been read. -/
theorem parts_positionsFrom (sep : Char) (before part : Text) (n : Nesting) (t : Text) :
    parts sep (before ++ (part ++ t)) (size before)
        (positionsFrom sep n (size before + size part) t) =
      .ok ((splitFrom sep n t).modifyHead (part ++ ·)) := by
  induction t generalizing before part n with
  | nil =>
    rw [positionsFrom, parts, sliceFrom_append]
    rfl
  | cons c t ih =>
    rw [positionsFrom, splitFrom]
    split
    · rename_i hsep
      obtain ⟨-, rfl⟩ : n.top = true ∧ c = sep := by simpa using hsep
      have hlater := ih (before ++ (part ++ [c])) [] (n.step c)
      simp only [size_append, size_cons, size_nil, Nat.add_zero, List.append_assoc, List.nil_append,
        List.singleton_append, ← Nat.add_assoc] at hlater
      rw [parts, slice_append before part (c :: t)]
      dsimp only [bind, Except.bind]
      rw [hlater]
      simp only [pure, Except.pure, List.modifyHead_cons, List.append_nil]
      cases splitFrom c (n.step c) t <;> rfl
    · have hlater := ih before (part ++ [c]) (n.step c)
      simp only [size_append, size_cons, size_nil, Nat.add_zero, List.append_assoc,
        List.singleton_append, ← Nat.add_assoc] at hlater
      rw [hlater, List.modifyHead_modifyHead]
      rfl

/-- The parts between the separators at the top level. -/
def partsAt (sep : Char) (t : Text) : Except Trap (List Text) := parts sep t 0 (positions sep t)

theorem partsAt_eq (sep : Char) (t : Text) : partsAt sep t = .ok (splitTop sep t) := by
  have h := parts_positionsFrom sep [] [] .start t
  simp only [List.nil_append, size_nil, Nat.add_zero] at h
  rw [partsAt, positions, h, splitTop]
  cases splitFrom sep .start t <;> rfl

/-- The position of the first separator at the top level. -/
def firstAt? (sep : Char) (t : Text) : Option Nat := (positions sep t).head?

theorem head?_positionsFrom (sep : Char) (n : Nesting) (start : Nat) (t : Text) :
    (positionsFrom sep n start t).head? =
      (cutFrom? sep n t).map fun (left, _) => start + size left := by
  induction t generalizing n start with
  | nil => rfl
  | cons c t ih =>
    rw [positionsFrom, cutFrom?]
    split
    · rfl
    · rw [ih, Option.map_map]
      refine Option.map_congr ?_
      rintro ⟨left, right⟩ -
      exact Nat.add_assoc start c.utf8Size (size left)

theorem firstAt?_eq (sep : Char) (t : Text) :
    firstAt? sep t = (cutTop? sep t).map fun (left, _) => size left := by
  rw [firstAt?, positions, head?_positionsFrom]
  simp only [Nat.zero_add]
  rfl

/-! ## The end of an angle bracket -/

/-- The position of the `>` that closes an angle bracket opened before the text. Of angle brackets,
`depth` are open in the state `q` at the position `start`. -/
def closingFrom (q : Quoting) (depth start : Nat) : Text → Except Trap (Option Nat)
  | [] => return none
  | c :: t =>
    let further (depth : Nat) := closingFrom (q.step c) depth (start + c.utf8Size) t
    if q.inside then further depth
    else if c = '<' then further (depth + 1)
    else if c = '>' then do
      let depth ← Checked.minus depth 1
      if depth = 0 then return some start else further depth
    else further depth

/-- One more is open than are counted from the beginning, so that none is closed that is not
open. -/
theorem closingFrom_eq (q : Quoting) (depth start : Nat) (t : Text) :
    closingFrom q (depth + 1) start t =
      .ok ((closeAngle? q depth t).map fun (inner, _) => start + size inner) := by
  induction t generalizing q depth start with
  | nil => rfl
  | cons c t ih =>
    have hfurther : ∀ depth, closingFrom (q.step c) (depth + 1) (start + c.utf8Size) t =
        .ok (((closeAngle? (q.step c) depth t).map fun (inner, rest) => (c :: inner, rest)).map
          fun (inner, _) => start + size inner) := by
      intro depth
      rw [ih, Option.map_map]
      refine congrArg Except.ok (Option.map_congr ?_)
      rintro ⟨inner, rest⟩ -
      exact Nat.add_assoc start c.utf8Size (size inner)
    unfold closingFrom closeAngle?
    split
    · exact hfurther depth
    split
    · exact hfurther (depth + 1)
    split
    · rw [Checked.minus_add]
      cases depth with
      | zero => rfl
      | succ depth => exact hfurther depth
    · exact hfurther depth

def closing? (t : Text) : Except Trap (Option Nat) := closingFrom .start 1 0 t

theorem closing?_eq (t : Text) :
    closing? t = .ok ((closeAngle? .start 0 t).map fun (inner, _) => size inner) := by
  rw [closing?, closingFrom_eq]
  simp only [Nat.zero_add]

end Text

end InterfaceForms

import InterfaceForms.Proofs.CheckedMembers
import InterfaceForms.Proofs.TextOrder

/-!
# Checked reading of texts

A walk looks up the record of the declaration that it is in, and counts the inner braces of a block
down again. Both are checked here, together with everything else that the reading of a text relies
on. There is never a trap: a text compiles to schemas, or there is a cause why it does not.

* `Walk.lineAt_eq`: in a sound walk no record is missing and no brace is closed that is not open.
* `Declaration.parseAt_eq`: the compilation of a text.
-/

namespace InterfaceForms

/-! ## The walk -/

namespace Walk

variable {found : Entries Record} {name : Text} {nested : Nat} {w : Walk} {s : Segment}

/-- Reads a line of a block. -/
def blockLineAt (found : Entries Record) (name : Text) (nested : Nat) (s : Segment) :
    Except Trap Walk := do
  if s.text = ['\x7d'] then
    if nested = 0 then
      -- The number of its members is told.
      let _ ← Checked.entry name found
      return ⟨found, .outside⟩
    else return ⟨found, .block name (← Checked.minus nested 1)⟩
  else if 0 < nested then
    return ⟨found, .block name (if Text.endsWith '\x7b' s.text then nested + 1 else nested)⟩
  else if Text.startsWith '|' s.text then
    return ⟨← Checked.edit name (Record.extendLast s.text) found, .block name 0⟩
  else if MemberLine.startsMember s.text then
    match Section.beforeBrace? s.text with
    | some head =>
      let line := Text.trimEnd head ++ " \x7b\x7d".toList
      return ⟨← Checked.edit name (Record.push line s.doc) found, .block name 1⟩
    | none => return ⟨← Checked.edit name (Record.push s.text s.doc) found, .block name 0⟩
  else return ⟨found, .block name 0⟩

/-- Reads a line after an alias. -/
def aliasLineAt (found : Entries Record) (name : Text) (s : Segment) : Except Trap Walk := do
  let r ← Checked.entry name found
  let expr := r.target?.getD []
  if s.text = ['\x7b'] && Text.blank expr then
    return ⟨← Checked.edit name (Record.setTarget none) found, .block name 0⟩
  else if Text.startsWith '|' s.text || Text.blank expr
      || Text.endsWith '|' (Text.trimEnd expr) then
    let longer := if expr = [] then s.text else expr ++ ' ' :: s.text
    return ⟨← Checked.edit name (Record.setTarget (some longer)) found, .alias name⟩
  else return ⟨found, .outside⟩

/-- Reads a segment. -/
def lineAt (w : Walk) (s : Segment) : Except Trap Walk :=
  match Header.ofLine? s.text with
  | some h => return w.openSection h s.line
  | none =>
    match w.place with
    | .outside => return w
    | .block name nested => blockLineAt w.found name nested s
    | .alias name => aliasLineAt w.found name s

theorem blockLineAt_eq (h : Walk.Sound ⟨found, .block name nested⟩) (s : Segment) :
    blockLineAt found name nested s = .ok (blockLine found name nested s) := by
  obtain ⟨-, r, hr, -⟩ := h
  unfold blockLineAt blockLine
  split
  · cases nested with
    | zero =>
      rw [if_pos rfl, Checked.entry_of_get? hr]
      rfl
    | succ nested =>
      rw [if_neg (Nat.succ_ne_zero nested), Checked.minus_add]
      rfl
  split
  · rfl
  split
  · rw [Checked.edit_of_get? hr]
    rfl
  split
  · cases Section.beforeBrace? s.text with
    | some head =>
      dsimp only
      rw [Checked.edit_of_get? hr]
      rfl
    | none =>
      dsimp only
      rw [Checked.edit_of_get? hr]
      rfl
  · rfl

theorem aliasLineAt_eq (h : Walk.Sound ⟨found, .alias name⟩) (s : Segment) :
    aliasLineAt found name s = .ok (aliasLine found name s) := by
  obtain ⟨-, r, expr, hr, hexpr⟩ := h
  have hfound : ((Entries.get? name found).bind (·.target?)).getD [] = r.target?.getD [] := by
    rw [hr]
    rfl
  unfold aliasLineAt aliasLine
  simp only [Checked.entry_of_get? hr, Checked.edit_of_get? hr, hfound, bind, Except.bind]
  split
  · rfl
  split
  · rfl
  · rfl

/-- In a sound walk no record is missing. -/
theorem lineAt_eq (h : w.Sound) (s : Segment) : lineAt w s = .ok (w.next s) := by
  unfold lineAt
  cases hs : Header.ofLine? s.text with
  | some header =>
    rw [next_of_header hs]
    rfl
  | none =>
    rw [next_of_line hs]
    obtain ⟨found, place⟩ := w
    cases place with
    | outside => rfl
    | block name nested => exact blockLineAt_eq h s
    | «alias» name => exact aliasLineAt_eq h s

/-- Reads segments one after another and reports on each. -/
def runAt (policy : DuplicatePolicy) (w : Walk) : List Segment → Checked Walk
  | [] => return w
  | s :: rest => do
    report policy w s
    runAt policy (← lineAt w s) rest

theorem runAt_eq (policy : DuplicatePolicy) (h : w.Sound) (segments : List Segment) :
    runAt policy w segments = liftM (run policy w segments) := by
  induction segments generalizing w with
  | nil => rfl
  | cons s rest ih =>
    rw [runAt, run, lineAt_eq h, liftM_bind]
    exact bind_congr fun _ => ih (h.next s)

/-- The records that a walk over the segments of a text finds. -/
def scanAt (policy : DuplicatePolicy) (t : Text) : Checked (Entries Record) := do
  let w ← runAt policy start (Segment.cut t)
  let kept ← dropBlankAliases w.found
  if kept = [] then liftM (Logged.fail .noDeclarations : Logged (Entries Record)) else return kept

theorem scanAt_eq (policy : DuplicatePolicy) (t : Text) :
    scanAt policy t = liftM (scan policy t) := by
  rw [scanAt, runAt_eq policy .start, scan]
  simp only [liftM_bind]
  refine bind_congr fun w => bind_congr fun kept => ?_
  split
  · rfl
  · rfl

end Walk

/-! ## Texts -/

namespace Declaration

/-- The declarations in a text, each under its name. -/
def ofTextAt (options : Options) (t : Text) : Checked (Entries Declaration) := do
  let records ← Walk.scanAt options.duplicates t
  records.mapM fun (name, r) => return (name, ← readAt name r)

/-- Reads the declarations in a text and compiles one of them, with at most `n` calls of the
compiler inside each other. -/
def parseAt (n : Nat) (options : Options) (root t : Text) : Checked (List Schema) := do
  compileIn (← ofTextAt options t) options Shape.readAt n root

theorem ofTextAt_eq (options : Options) (t : Text) :
    ofTextAt options t = liftM (keyed <$> ofText options t) := by
  have hentry : ∀ source : Source,
      (do return (source.name, ← readAt source.name source.record) : Checked (Text × Declaration)) =
        liftM ((fun d : Declaration => (d.name, d)) <$> Logged.ofExcept (ofSource source)) := by
    intro source
    rw [readAt_eq]
    cases hsource : ofSource source with
    | error cause => rfl
    | ok d =>
      rw [← name_ofSource hsource]
      rfl
  rw [ofTextAt, Walk.scanAt_eq, Walk.scan_eq, ofText]
  simp only [map_bind, liftM_bind, liftM_map, bind_map_left, Logged.ofExcept_mapM]
  refine bind_congr fun sources => ?_
  rw [Source.records, List.mapM_map]
  simp only [Function.comp_def, hentry]
  rw [Checked.mapM_lift, Logged.mapM_map, liftM_map]
  rfl

/-- There is never a trap, if enough calls inside each other are allowed: no record is missing where
one is looked up, no count falls below zero, and no slice has bounds that are out of order, beyond
the text or inside a character. A text compiles to schemas, or there is a cause why it does not. -/
theorem parseAt_eq (options : Options) (root t : Text) :
    ∃ bound, ∀ n, bound ≤ n →
      parseAt n options root t = liftM (compileText options root t) ∧
      ((∃ roots, (parseAt n options root t).run.result = .ok (.ok roots)) ∨
        ∃ cause, (parseAt n options root t).run.result = .error cause) := by
  have hread : Shape.readAt = Shape.read := funext Shape.readAt_eq
  obtain ⟨bound, hbound⟩ : ∃ bound, ∀ declarations n,
      (ofText options t).result = .ok declarations → bound ≤ n →
        compileIn (keyed declarations) options Shape.read n root =
          liftM (compile declarations options root) := by
    cases hresult : (ofText options t).result with
    | error cause => exact ⟨0, nofun⟩
    | ok declarations =>
      refine ⟨(keyed declarations).length * (width (keyed declarations) + 2), ?_⟩
      rintro _ n ⟨⟩ hn
      exact compileIn_eq root hn
  refine ⟨bound, fun n hn => ?_⟩
  have hparse : parseAt n options root t = liftM (compileText options root t) := by
    rw [parseAt, ofTextAt_eq, hread, compileText, liftM_map, bind_map_left, liftM_bind]
    exact Checked.bind_congr_of_ok fun declarations hd => hbound declarations n hd hn
  refine ⟨hparse, ?_⟩
  rw [hparse, Checked.result_lift]
  cases (compileText options root t).result with
  | error cause => exact .inr ⟨cause, rfl⟩
  | ok roots => exact .inl ⟨roots, rfl⟩

end Declaration

end InterfaceForms

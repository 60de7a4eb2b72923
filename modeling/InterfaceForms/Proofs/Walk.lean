import InterfaceForms.Entries
import InterfaceForms.Source
import InterfaceForms.Proofs.Entries
import InterfaceForms.Proofs.Logged

/-!
# The walk over the segments

The sources of a text can be read in one walk over its segments. The walk stands outside any
declaration, in a block or in an alias, and it keeps a record of each declaration under its name.
A header starts a record afresh, and the lines after it change the record of the declaration that
the walk is in.

* `Walk.next`, `Walk.report`: a step, and what is said about it.
* `Walk.Sound.next`: every step keeps the records in order, and the walk in a declaration that has
  a record.
-/

namespace InterfaceForms

/-! ## Records -/

/-- What has been read of a declaration. -/
structure Record where
  name : Text
  /-- The line of the header. -/
  line : Nat
  /-- The expression of an alias. -/
  target? : Option Text
  /-- The lines of the members. -/
  members : List Text
  /-- The block comments before the members, at the same places. -/
  docs : List (Option Text)
  deriving DecidableEq, Repr

namespace Record

/-- The record that a header starts. -/
def ofHeader (h : Header) (line : Nat) : Record := ⟨h.name, line, h.aliasExpr?, [], []⟩

def push (text : Text) (doc : Option Text) (r : Record) : Record :=
  { r with members := r.members ++ [text], docs := r.docs ++ [doc] }

/-- Adds an alternative to the last member. -/
def extendLast (alternative : Text) (r : Record) : Record :=
  let extended (member : Text) := (MemberLine.extend ⟨member, none⟩ alternative).text
  { r with members := (r.members.reverse.modifyHead extended).reverse }

def setTarget (target? : Option Text) (r : Record) : Record := { r with target? := target? }

end Record

/-! ## Steps -/

/-- Where a walk stands. -/
inductive Place
  | outside
  /-- In a block, with `nested` inner braces open. -/
  | block (name : Text) (nested : Nat)
  | alias (name : Text)
  deriving DecidableEq, Repr

/-- The declaration that the walk is in. -/
def Place.owner? : Place → Option Text
  | .outside => none
  | .block name _ => some name
  | .alias name => some name

structure Walk where
  /-- The records, in the order of the first headers. -/
  found : Entries Record
  place : Place
  deriving DecidableEq, Repr

namespace Walk

def start : Walk := ⟨[], .outside⟩

/-- Starts the record of a header, in the place of one with its name if there is one. -/
def openSection (w : Walk) (h : Header) (line : Nat) : Walk where
  found := Entries.insert h.name (.ofHeader h line) w.found
  place := match h.aliasExpr? with
    | none => .block h.name 0
    | some _ => .alias h.name

/-- Reads a line of a block. -/
def blockLine (found : Entries Record) (name : Text) (nested : Nat) (s : Segment) : Walk :=
  if s.text = ['\x7d'] then
    match nested with
    | 0 => ⟨found, .outside⟩
    | nested + 1 => ⟨found, .block name nested⟩
  else if 0 < nested then
    ⟨found, .block name (if Text.endsWith '\x7b' s.text then nested + 1 else nested)⟩
  else if Text.startsWith '|' s.text then
    ⟨Entries.update name (Record.extendLast s.text) found, .block name 0⟩
  else if MemberLine.startsMember s.text then
    match Section.beforeBrace? s.text with
    | some head =>
      ⟨Entries.update name (Record.push (Text.trimEnd head ++ " \x7b\x7d".toList) s.doc) found,
        .block name 1⟩
    | none => ⟨Entries.update name (Record.push s.text s.doc) found, .block name 0⟩
  else ⟨found, .block name 0⟩

/-- Reads a line after an alias. -/
def aliasLine (found : Entries Record) (name : Text) (s : Segment) : Walk :=
  let expr := ((Entries.get? name found).bind (·.target?)).getD []
  if s.text = ['\x7b'] && Text.blank expr then
    ⟨Entries.update name (Record.setTarget none) found, .block name 0⟩
  else if Text.startsWith '|' s.text || Text.blank expr
      || Text.endsWith '|' (Text.trimEnd expr) then
    let longer := if expr = [] then s.text else expr ++ ' ' :: s.text
    ⟨Entries.update name (Record.setTarget (some longer)) found, .alias name⟩
  else ⟨found, .outside⟩

/-- Reads a segment. -/
def next (w : Walk) (s : Segment) : Walk :=
  match Header.ofLine? s.text with
  | some h => w.openSection h s.line
  | none =>
    match w.place with
    | .outside => w
    | .block name nested => blockLine w.found name nested s
    | .alias name => aliasLine w.found name s

/-- What is said about a segment: a second header of a name is refused or noted, and so is a member
whose type is an object. -/
def report (policy : DuplicatePolicy) (w : Walk) (s : Segment) : Logged Unit :=
  match Header.ofLine? s.text with
  | some h =>
    match Entries.get? h.name w.found, policy with
    | none, _ => return ()
    | some _, .reject => Logged.fail (.duplicateDeclaration h.name)
    | some earlier, .lastWins => Logged.warn (.duplicateDeclaration h.name earlier.line s.line)
  | none =>
    match w.place, Section.beforeBrace? s.text with
    | .block name 0, some head =>
      if MemberLine.startsMember s.text then
        Logged.warn (.inlineObjectMember name (Text.trim head))
      else return ()
    | _, _ => return ()

/-- Reads segments one after another. -/
def after (w : Walk) (segments : List Segment) : Walk := segments.foldl next w

/-- Reads segments one after another and reports on each. -/
def run (policy : DuplicatePolicy) (w : Walk) : List Segment → Logged Walk
  | [] => return w
  | s :: rest => do
    report policy w s
    run policy (w.next s) rest

/-- A walk that is not refused ends where its steps lead. -/
theorem after_of_run {policy : DuplicatePolicy} {w w' : Walk} {segments : List Segment}
    (h : (run policy w segments).result = .ok w') : w' = w.after segments := by
  induction segments generalizing w with
  | nil =>
    cases h
    rfl
  | cons s rest ih =>
    obtain ⟨_, _, hrest⟩ := Logged.bind_ok.1 h
    exact ih hrest

theorem next_of_header {w : Walk} {s : Segment} {h : Header} (hs : Header.ofLine? s.text = some h) :
    w.next s = w.openSection h s.line := by
  unfold next
  rw [hs]

theorem next_of_line {w : Walk} {s : Segment} (hs : Header.ofLine? s.text = none) :
    w.next s = match w.place with
      | .outside => w
      | .block name nested => blockLine w.found name nested s
      | .alias name => aliasLine w.found name s := by
  unfold next
  rw [hs]

end Walk

/-! ## Lines that start a member -/

namespace Text

theorem isBlank_of_isAlphabetic {c : Char} (h : isAlphabetic c = true) : isBlank c = false :=
  isBlank_of_class (by decide +kernel) h

end Text

namespace MemberLine

/-- A member starts with a character that is neither blank nor a brace. -/
theorem exists_of_startsMember {t : Text} (h : startsMember t = true) :
    ∃ c u, t = c :: u ∧ Text.isBlank c = false ∧ c ≠ '\x7b' ∧
      ∀ v, startsMember (c :: v) = true := by
  cases t with
  | nil => cases h
  | cons c u =>
    have hall : ∀ v, startsMember (c :: v) = true := fun v => h
    refine ⟨c, u, rfl, ?_, ?_, hall⟩
    · simp only [startsMember, Bool.or_eq_true, decide_eq_true_eq] at h
      rcases h with (((h | rfl) | rfl) | rfl) | rfl
      · exact Text.isBlank_of_isAlphabetic h
      all_goals decide
    · rintro rfl
      have hnot : startsMember ['\x7b'] = false := by decide +kernel
      rw [hall []] at hnot
      cases hnot

/-- A member whose type is an object keeps its beginning. -/
theorem startsMember_trimEnd {t head : Text} (h : startsMember t = true)
    (hhead : Section.beforeBrace? t = some head) (v : Text) :
    startsMember (Text.trimEnd head ++ v) = true := by
  obtain ⟨c, u, rfl, hc, hbrace, hall⟩ := exists_of_startsMember h
  unfold Section.beforeBrace? at hhead
  split at hhead
  · rename_i hends
    obtain rfl := Option.some.inj hhead
    cases u with
    | nil =>
      obtain rfl : c = '\x7b' := by simpa [Text.endsWith] using hends
      exact absurd rfl hbrace
    | cons d u =>
      rw [List.dropLast_cons_cons, Text.trimEnd, Text.dropEndWhile_cons hc, List.cons_append]
      exact hall _
  · cases hhead

/-- A member keeps its beginning when an alternative is added. -/
theorem startsMember_extend {line : MemberLine} (h : startsMember line.text = true)
    (alternative : Text) : startsMember (line.extend alternative).text = true := by
  obtain ⟨c, u, htext, hc, -, hall⟩ := exists_of_startsMember h
  have hspace : c ≠ ' ' := by
    rintro rfl
    cases hc
  have hcut : (cutTrailer (c :: u)).1 = c :: (cutTrailer u).1 := by
    have hprefix : " // ".toList.isPrefixOf (c :: u) = false := by
      have hne : (' ' == c) = false := beq_eq_false_iff_ne.2 (Ne.symm hspace)
      show (' ' == c && _) = false
      rw [hne, Bool.false_and]
    rw [cutTrailer, hprefix]
    rfl
  simp only [extend, htext, hcut, Text.trimEnd, Text.dropEndWhile_cons hc, List.cons_append]
  exact hall _

end MemberLine

/-! ## What a walk keeps -/

/-- The record is that of the name, has a comment or none for each member, and no members if it is
of an alias. Every member starts like one. -/
structure Record.Sound (name : Text) (r : Record) : Prop where
  name : r.name = name
  docs : r.docs.length = r.members.length
  target : ∀ expr ∈ r.target?, r.members = [] ∧ r.docs = []
  members : ∀ m ∈ r.members, MemberLine.startsMember m = true

namespace Record.Sound

variable {name : Text} {r : Record}

theorem ofHeader (h : Header) (line : Nat) : (Record.ofHeader h line).Sound h.name :=
  ⟨rfl, rfl, fun _ _ => ⟨rfl, rfl⟩, nofun⟩

theorem push (h : r.Sound name) (hblock : r.target? = none) {text : Text}
    (htext : MemberLine.startsMember text = true) (doc : Option Text) :
    (r.push text doc).Sound name where
  name := h.name
  docs := by simp [Record.push, h.docs]
  target expr hexpr := by
    have hnone : (none : Option Text) = some expr := hblock ▸ hexpr
    cases hnone
  members m hm := by
    rcases List.mem_append.1 hm with hm | hm
    · exact h.members m hm
    · obtain rfl := List.mem_singleton.1 hm
      exact htext

theorem extendLast (h : r.Sound name) (alternative : Text) :
    (r.extendLast alternative).Sound name where
  name := h.name
  docs := by simp [Record.extendLast, h.docs]
  target expr hexpr := by
    obtain ⟨hmembers, hdocs⟩ := h.target expr hexpr
    simp [Record.extendLast, hmembers, hdocs]
  members m hm := by
    simp only [Record.extendLast, List.mem_reverse] at hm
    have hall : ∀ x ∈ r.members.reverse, MemberLine.startsMember x = true :=
      fun x hx => h.members x (List.mem_reverse.1 hx)
    cases hrev : r.members.reverse with
    | nil =>
      rw [hrev] at hm
      cases hm
    | cons last rest =>
      rw [hrev] at hm hall
      rcases List.mem_cons.1 hm with rfl | hm
      · exact MemberLine.startsMember_extend (hall last List.mem_cons_self) alternative
      · exact hall m (List.mem_cons_of_mem _ hm)

theorem setTarget (h : r.Sound name) (hempty : r.members = [] ∧ r.docs = [])
    (target? : Option Text) : (r.setTarget target?).Sound name where
  name := h.name
  docs := h.docs
  target _ _ := hempty
  members := h.members

end Record.Sound

/-- All records are sound, and the walk is in a declaration that has a record, which is that of a
block or of an alias as the walk takes it for. -/
structure Walk.Sound (w : Walk) : Prop where
  records : ∀ e ∈ w.found, e.2.Sound e.1
  place : match w.place with
    | .outside => True
    | .block name _ => ∃ r, Entries.get? name w.found = some r ∧ r.target? = none
    | .alias name => ∃ r expr, Entries.get? name w.found = some r ∧ r.target? = some expr

namespace Walk.Sound

theorem start : Walk.start.Sound := ⟨nofun, trivial⟩

theorem openSection {w : Walk} (h : w.Sound) (header : Header) (line : Nat) :
    (w.openSection header line).Sound where
  records e he := by
    rcases Entries.mem_of_mem_insert he with rfl | he
    · exact .ofHeader header line
    · exact h.records e he
  place := by
    unfold Walk.openSection
    cases hexpr : header.aliasExpr? with
    | none => exact ⟨_, Entries.get?_insert_self, hexpr⟩
    | some expr => exact ⟨_, expr, Entries.get?_insert_self, hexpr⟩

variable {found : Entries Record} {name : Text}

/-- A change of one record is sound if it is for that record. -/
theorem records_update (h : ∀ e ∈ found, e.2.Sound e.1) {f : Record → Record}
    (hf : ∀ r, Entries.get? name found = some r → r.Sound name → (f r).Sound name) :
    ∀ e ∈ Entries.update name f found, e.2.Sound e.1 := by
  intro e he
  rcases Entries.mem_of_mem_update he with he | ⟨r, hr, rfl⟩
  · exact h e he
  · exact hf r hr (h _ (Entries.get?_eq_some_mem hr))

theorem blockLine {nested : Nat} (h : Walk.Sound ⟨found, .block name nested⟩) (s : Segment) :
    (Walk.blockLine found name nested s).Sound := by
  obtain ⟨hrecords, r, hr, hblock⟩ := h
  have hsame : ∀ n, Walk.Sound ⟨found, .block name n⟩ := fun n => ⟨hrecords, r, hr, hblock⟩
  have hupdate : ∀ {f : Record → Record} (n : Nat),
      (∀ r, r.target? = none → (f r).target? = none) →
      (∀ r, r.target? = none → r.Sound name → (f r).Sound name) →
      Walk.Sound ⟨Entries.update name f found, .block name n⟩ := by
    intro f n htarget hf
    refine ⟨records_update hrecords ?_, f r, ?_, htarget r hblock⟩
    · intro r' hr' hsound
      obtain rfl := Option.some.inj (hr.symm.trans hr')
      exact hf r hblock hsound
    · rw [Entries.get?_update_self, hr]
      rfl
  unfold Walk.blockLine
  split
  · split
    · exact ⟨hrecords, trivial⟩
    · exact hsame _
  split
  · exact hsame _
  split
  · exact hupdate 0 (fun _ hnone => hnone) fun r _ hsound => hsound.extendLast s.text
  split
  · rename_i hmember
    split
    · rename_i head hhead
      refine hupdate 1 (fun _ hnone => hnone) fun r hnone hsound => hsound.push hnone ?_ s.doc
      exact MemberLine.startsMember_trimEnd hmember hhead _
    · exact hupdate 0 (fun _ hnone => hnone) fun r hnone hsound => hsound.push hnone hmember s.doc
  · exact hsame 0

theorem aliasLine (h : Walk.Sound ⟨found, .alias name⟩) (s : Segment) :
    (Walk.aliasLine found name s).Sound := by
  obtain ⟨hrecords, r, expr, hr, hexpr⟩ := h
  have hempty := (hrecords _ (Entries.get?_eq_some_mem hr)).target expr hexpr
  have hupdate : ∀ target?, ∀ e ∈ Entries.update name (Record.setTarget target?) found,
      e.2.Sound e.1 := by
    intro target?
    refine records_update hrecords fun r' hr' hsound => ?_
    obtain rfl := Option.some.inj (hr.symm.trans hr')
    exact hsound.setTarget hempty target?
  have hget : ∀ target?, Entries.get? name (Entries.update name (Record.setTarget target?) found) =
      some (r.setTarget target?) := by
    intro target?
    rw [Entries.get?_update_self, hr]
    rfl
  unfold Walk.aliasLine
  dsimp only
  split
  · exact ⟨hupdate none, _, hget none, rfl⟩
  split
  · exact ⟨hupdate _, _, _, hget _, rfl⟩
  · exact ⟨hrecords, trivial⟩

/-- A step keeps a walk sound. -/
theorem next {w : Walk} (h : w.Sound) (s : Segment) : (w.next s).Sound := by
  cases hs : Header.ofLine? s.text with
  | some header =>
    rw [next_of_header hs]
    exact h.openSection header s.line
  | none =>
    rw [next_of_line hs]
    obtain ⟨found, place⟩ := w
    cases place with
    | outside => exact h
    | block name nested => exact h.blockLine s
    | «alias» name => exact h.aliasLine s

theorem after {w : Walk} (h : w.Sound) (segments : List Segment) : (w.after segments).Sound := by
  induction segments generalizing w with
  | nil => exact h
  | cons s rest ih => exact ih (h.next s)

/-- The declaration that the walk is in has a record. -/
theorem mem_keys {w : Walk} (h : w.Sound) (howner : name ∈ w.place.owner?) :
    name ∈ Entries.keys w.found := by
  obtain ⟨found, place⟩ := w
  have hplace := h.place
  cases place with
  | outside => cases howner
  | block owner nested =>
    obtain rfl := Option.some.inj howner
    obtain ⟨r, hr, _⟩ := hplace
    exact Entries.mem_keys_of_mem (Entries.get?_eq_some_mem hr)
  | «alias» owner =>
    obtain rfl := Option.some.inj howner
    obtain ⟨r, _, hr, _⟩ := hplace
    exact Entries.mem_keys_of_mem (Entries.get?_eq_some_mem hr)

end Walk.Sound

end InterfaceForms

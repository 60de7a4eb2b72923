import InterfaceForms.Proofs.PrintedComments

/-!
# Segments of printed declarations

A printed block is cut into its header, a segment for each member and the closing brace, and a
printed alias is one segment. The layout of the text shows in nothing but the blanks before a
comment.

* `Segment.cut_print`: the segments of printed declarations.
-/

namespace InterfaceForms

/-! ## Members -/

namespace FieldDecl

/-- What a comment at the end of the line adds to the segment of a member. -/
def tail (l : Layout) (f : FieldDecl) : Text :=
  match f.note with
  | .after comment => (if l.closeMembers then [] else [' ']) ++ Cutter.trailer comment
  | _ => []

/-- The segment of a member. -/
def lineText (l : Layout) (f : FieldDecl) : Text := f.code ++ f.tail l

/-- The comment on the line before a member. -/
def doc (f : FieldDecl) : Option Text :=
  match f.note with
  | .before comment => some comment
  | _ => none

/-- What stands in the code of a member after its name. -/
def afterName (f : FieldDecl) : Text :=
  (if f.optional then ['?'] else []) ++ ": ".toList ++ f.type.print

theorem code_eq (f : FieldDecl) : f.code = f.name ++ f.afterName := by
  simp only [code, afterName, List.append_assoc]

namespace WellFormed

variable {f : FieldDecl}

theorem code_afterName (h : f.WellFormed) : Code [] f.afterName := by
  refine .append (.append ?_ (.of_all (by decide))) (h.type.printed.code.mono rfl)
  split
  · exact .of_all (by decide)
  · exact .nil

theorem code (h : f.WellFormed) : Code [] f.code := by
  have hname : Code [] f.name := h.name.code.mono rfl
  rw [code_eq]
  exact hname.append h.code_afterName

theorem ends (h : f.WellFormed) : f.code.Ends Header.startsName closesType := by
  obtain ⟨c, u, hname, hc⟩ := h.name.ends.first
  obtain ⟨v, d, hprint, hd⟩ := h.type.printed.ends.last
  refine ⟨⟨c, u ++ f.afterName, by rw [code_eq, hname, List.cons_append], hc⟩, ?_⟩
  refine ⟨f.name ++ (if f.optional then ['?'] else []) ++ ": ".toList ++ v, d, ?_, hd⟩
  simp [FieldDecl.code, hprint]

theorem solid (h : f.WellFormed) : f.code.Solid := by
  refine solid_of_ends (h.ends.mono (fun c hc => ?_) fun _ hc => hc)
  simp [opensType, hc]

end WellFormed

end FieldDecl

namespace Cutter

variable {s : Cutter} {text : Text} {doc : Option Text} {read : List (Text × Option Text)}

/-- Code that begins with a name is held and ends no segment. -/
theorem Ready.hold_code (h : Ready s doc read) {n u : Text} (hn : IsName n) (hu : Code [] u) :
    Holding (s.run (n ++ u)) (n ++ u) doc read ∧ (s.run (n ++ u)).done = s.done := by
  cases n with
  | nil => cases hn
  | cons c n =>
    obtain ⟨hc, hchars⟩ := hn
    have hname := Text.isNameChar_of_startsName hc
    have hcode : Code [] (n ++ u) := ((Code.of_isNameChar hchars).mono rfl).append hu
    have hfirst := h.hold_name hname
    have hdone : (s.step c).done = s.done := by
      have hplain := isPlain_of_isNameChar hname
      rw [step_of_code h.mode (not_isQuoteMark_of_isPlain hplain) (special_of_isPlain hplain)]
      rfl
    obtain ⟨last, -, hrun⟩ := Holds.of_code hcode (s.step c) hfirst.mode hfirst.held
    rw [List.cons_append, run_cons, hrun, ← hdone]
    exact ⟨hfirst.hold _ last, rfl⟩

/-- The end of a line of code without a comment. -/
theorem Holding.run_terminator (h : Holding s text doc read) (hsolid : Text.Solid text)
    (close : Bool) : Ready (s.run (terminator close ++ ['\n'])) none ((text, doc) :: read) := by
  unfold terminator
  split
  · exact (h.semicolon hsolid).1.newline
  · exact h.newline hsolid

/-- The end of a line of code with a comment. -/
theorem Holding.run_comment (h : Holding s text doc read) (hsolid : Text.Solid text)
    (hbrace : text ≠ ['\x7d']) (hopen : Text.endsWith '\x7b' text = false) {comment : Text}
    (hcomment : IsLine comment) (close : Bool) :
    Ready (s.run (terminator close ++ (" // ".toList ++ comment) ++ ['\n'])) none
      ((text ++ ((if close then [] else [' ']) ++ trailer comment), doc) :: read) := by
  unfold terminator
  split
  · obtain ⟨hready, done, hdone⟩ := h.semicolon hsolid
    exact hready.comment hdone rfl (by simp [Segment.takesComment, hbrace, hopen]) hcomment
  · exact h.comment hsolid hcomment

end Cutter

/-- A printed member becomes one segment. -/
theorem FieldDecl.run_print {f : FieldDecl} (hf : f.WellFormed) {s : Cutter}
    {read : List (Text × Option Text)} (h : s.Ready none read) (l : Layout) :
    (s.run (f.print l)).Ready none ((f.lineText l, f.doc) :: read) := by
  have hcode : ∀ {r : Cutter} {doc : Option Text}, r.Ready doc read →
      (r.run (l.indentation ++ f.code)).Holding f.code doc read := by
    intro r doc hr
    rw [Cutter.run_append, code_eq]
    exact ((hr.spaces l.indent).hold_code hf.name hf.code_afterName).1
  have hsolid := hf.solid
  have hopen := hf.ends.endsWith (c := '\x7b') (by decide)
  have hbrace : f.code ≠ ['\x7d'] := by
    obtain ⟨c, u, hcu, hc⟩ := hf.ends.first
    rw [hcu]
    rintro ⟨⟩
    exact absurd hc (by decide)
  have hwell := hf.note
  cases hnote : f.note with
  | none =>
    have hprint : f.print l =
        (l.indentation ++ f.code) ++ (terminator l.closeMembers ++ ['\n']) := by
      simp [print, hnote]
    simp only [lineText, tail, FieldDecl.doc, hnote, List.append_nil]
    rw [hprint, Cutter.run_append]
    exact (hcode h).run_terminator hsolid l.closeMembers
  | after comment =>
    rw [hnote] at hwell
    have hprint : f.print l = (l.indentation ++ f.code) ++
        (terminator l.closeMembers ++ (" // ".toList ++ comment) ++ ['\n']) := by
      simp [print, hnote]
    simp only [lineText, tail, FieldDecl.doc, hnote]
    rw [hprint, Cutter.run_append]
    exact (hcode h).run_comment hsolid hbrace hopen hwell.1 l.closeMembers
  | before comment =>
    rw [hnote] at hwell
    have hprint : f.print l = l.indentation ++ ("/** ".toList ++ comment ++ " */\n".toList) ++
        ((l.indentation ++ f.code) ++ (terminator l.closeMembers ++ ['\n'])) := by
      simp [print, hnote]
    have hdoc : (s.run (l.indentation ++ ("/** ".toList ++ comment ++ " */\n".toList))).Ready
        (some comment) read := by
      rw [Cutter.run_append]
      exact (h.spaces l.indent).blockComment hwell.1 hwell.2.2
    have hline := (hcode hdoc).run_terminator hsolid l.closeMembers
    simp only [lineText, tail, FieldDecl.doc, hnote, List.append_nil]
    rw [hprint, Cutter.run_append, Cutter.run_append _ (l.indentation ++ f.code)]
    exact hline

/-! ## Declarations -/

namespace Decl

/-- The first segment of a declaration. -/
def headerText (d : Decl) : Text :=
  match d.body with
  | .block _ => "interface ".toList ++ d.name ++ " \x7b".toList
  | .alias target => "type ".toList ++ d.name ++ " = ".toList ++ target.print

/-- The segments after the first one. -/
def bodySegments (l : Layout) (d : Decl) : List (Text × Option Text) :=
  match d.body with
  | .block fields => fields.map (fun f => (f.lineText l, f.doc)) ++ [(['\x7d'], none)]
  | .alias _ => []

def segments (l : Layout) (d : Decl) : List (Text × Option Text) :=
  (d.headerText, none) :: d.bodySegments l

end Decl

/-- After a declaration nothing is held that a newline or the end of the text would not end. -/
structure Cutter.Settled (s : Cutter) (read : List (Text × Option Text)) : Prop where
  mode : s.mode = .code
  nested : s.nested = false
  flush : s.flush.Ready none read

namespace Cutter

variable {s : Cutter} {read : List (Text × Option Text)}

theorem Ready.settled (h : s.Ready none read) : s.Settled read := ⟨h.mode, h.nested, h.flush⟩

theorem Settled.newline (h : s.Settled read) : (s.step '\n').Ready none read := by
  rw [step_newline h.mode h.nested]
  exact h.flush.move _ _

theorem Holding.run_end {text : Text} (h : Holding s text none read) (hsolid : Text.Solid text)
    (close : Bool) : (s.run (terminator close)).Settled ((text, none) :: read) := by
  unfold terminator
  split
  · exact (h.semicolon hsolid).1.settled
  · exact ⟨h.mode, h.nested, h.settle hsolid⟩

theorem Settled.finish (h : s.Settled read) : s.finish.map Segment.content = read.reverse := by
  simp only [Cutter.finish, h.mode]
  rw [List.map_reverse, h.flush.done]

end Cutter

theorem FieldDecl.run_printAll {fields : List FieldDecl} (hf : ∀ f ∈ fields, f.WellFormed)
    {s : Cutter} {read : List (Text × Option Text)} (h : s.Ready none read) (l : Layout) :
    (s.run (fields.flatMap (·.print l))).Ready none
      ((fields.map fun f => (f.lineText l, f.doc)).reverse ++ read) := by
  induction fields generalizing s read with
  | nil => exact h
  | cons f fields ih =>
    rw [List.flatMap_cons, Cutter.run_append]
    have hrest := ih (fun g hg => hf g (List.mem_cons_of_mem f hg))
      (f.run_print (hf f List.mem_cons_self) h l)
    simpa using hrest

/-- The header of a block becomes one segment, with its brace. -/
theorem Cutter.Ready.header {s : Cutter} {doc : Option Text} {read : List (Text × Option Text)}
    (h : s.Ready doc read) {name : Text} (hname : IsName name) :
    (s.run ("interface ".toList ++ name ++ " \x7b".toList)).Ready none
      (("interface ".toList ++ name ++ " \x7b".toList, doc) :: read) := by
  have hspace : Code [] [' '] := .of_all (by decide)
  have hcode : Code [] name := hname.code.mono rfl
  have htext : "interface ".toList ++ name ++ " \x7b".toList =
      ("interface".toList ++ ([' '] ++ name ++ [' '])) ++ ['\x7b'] := by
    simp
  have hsolid : Text.Solid ("interface".toList ++ ([' '] ++ name ++ [' ']) ++ ['\x7b']) := by
    simpa using Text.Ends.between (c := 'i') (d := '\x7b') (by decide) (by decide)
      ("nterface".toList ++ ([' '] ++ name ++ [' ']))
  obtain ⟨hheld, -⟩ := h.hold_code (n := "interface".toList) ⟨by decide, by decide⟩
    ((hspace.append hcode).append hspace)
  rw [htext, Cutter.run_append]
  exact hheld.openBrace hsolid

/-- A printed declaration becomes its segments. -/
theorem Decl.run_print {d : Decl} (hd : d.WellFormed) {s : Cutter}
    {read : List (Text × Option Text)} (h : s.Ready none read) (l : Layout) :
    (s.run (d.print l)).Settled ((d.segments l).reverse ++ read) := by
  obtain ⟨name, fields | target⟩ := d
  · have hfields : ∀ f ∈ fields, f.WellFormed := hd.body
    have hprint : Decl.print l ⟨name, .block fields⟩ =
        ("interface ".toList ++ name ++ " \x7b".toList) ++
          ('\n' :: (fields.flatMap (·.print l) ++ ['\x7d'])) := by
      simp [Decl.print]
    have hmembers := FieldDecl.run_printAll hfields (h.header hd.name.name).newline l
    have hclosed := hmembers.closeBrace.settled
    rw [hprint, Cutter.run_append, Cutter.run_cons, Cutter.run_append]
    simpa [segments, headerText, bodySegments] using hclosed
  · have htarget : target.WellFormed := hd.body
    have hspace : Code [] [' '] := .of_all (by decide)
    have hname : Code [] name := hd.name.name.code.mono rfl
    have hcode : Code [] ([' '] ++ target.print) := hspace.append (htarget.printed.code.mono rfl)
    have hprint : Decl.print l ⟨name, .alias target⟩ =
        ("type".toList ++ ([' '] ++ name ++ [' '])) ++
          ('=' :: (([' '] ++ target.print) ++ terminator l.closeAliases)) := by
      simp [Decl.print]
    obtain ⟨hheader, -⟩ := h.hold_code (n := "type".toList) ⟨by decide, by decide⟩
      ((hspace.append hname).append hspace)
    have hheld := hheader.equals.code hcode
    have hstart : Text.Solid "type".toList := IsName.solid ⟨by decide, by decide⟩
    have htext : "type".toList ++ ([' '] ++ name ++ [' ']) ++ ['='] ++ ([' '] ++ target.print) =
        headerText ⟨name, .alias target⟩ := by
      simp [headerText]
    have hsolid : Text.Solid (headerText ⟨name, .alias target⟩) := by
      have := hstart.append (solid_of_ends htarget.printed.ends) (' ' :: name ++ " = ".toList)
      simpa [headerText] using this
    rw [htext] at hheld
    rw [hprint, Cutter.run_append, Cutter.run_cons, Cutter.run_append]
    exact hheld.run_end hsolid l.closeAliases

/-- The newlines between two declarations. -/
theorem Cutter.Settled.newlines {s : Cutter} {read : List (Text × Option Text)}
    (h : s.Settled read) (n : Nat) : (s.run (List.replicate (n + 1) '\n')).Ready none read :=
  h.newline.newlines n

theorem Decls.run_joinWith {ds : List Decl} (hds : ∀ d ∈ ds, d.WellFormed) {s : Cutter}
    {read : List (Text × Option Text)} (h : s.Ready none read) (l : Layout) :
    (s.run (Text.joinWith (List.replicate (l.gap + 1) '\n') (ds.map (·.print l)))).Settled
      ((ds.flatMap (·.segments l)).reverse ++ read) := by
  induction ds generalizing s read with
  | nil => exact h.settled
  | cons d ds ih =>
    have hd := d.run_print (hds d List.mem_cons_self) h l
    cases ds with
    | nil =>
      rw [List.map_singleton, Text.joinWith_singleton, List.flatMap_singleton]
      exact hd
    | cons e ds =>
      have hrest := ih (fun x hx => hds x (List.mem_cons_of_mem d hx)) (hd.newlines l.gap)
      rw [List.map_cons, List.map_cons, Text.joinWith_cons_cons, Cutter.run_append,
        Cutter.run_append, List.flatMap_cons, List.reverse_append, List.append_assoc]
      exact hrest

/-- The segments of printed declarations are those of the declarations, in order. -/
theorem Segment.cut_print {ds : List Decl} (hds : ∀ d ∈ ds, d.WellFormed) (l : Layout) :
    (Segment.cut (Decls.print l ds)).map Segment.content = ds.flatMap (·.segments l) := by
  have hall := Decls.run_joinWith hds Cutter.ready_start l
  have hend : (Cutter.start.run (Decls.print l ds)).Settled
      ((ds.flatMap (·.segments l)).reverse ++ []) := by
    rw [Decls.print, Cutter.run_append]
    cases l.final with
    | zero => exact hall
    | succ n => exact (hall.newlines n).settled
  rw [Segment.cut, hend.finish, List.append_nil, List.reverse_reverse]

end InterfaceForms

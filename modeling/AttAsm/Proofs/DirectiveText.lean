import AttAsm.Check.Directive
import AttAsm.Proofs.TextLines

/-!
# Printed directives

A directive is printed as a comment line: leader, keyword, text, with blanks between them and around
them. The style of a line says which leader, which blanks and which line end are taken.

A printed line reads back as its directive, because every keyword starts and ends with a character
that is not blank and none is the start of another (`Directive.parse?_append`). Lines are then split
off one by one (`map_parse?_print`).

Main statement: reading a printed list of directives gives the list, in whatever style each of its
lines is printed (`CheckFile.parse_print`).
-/

namespace AttAsm.Check

/-! ## Printing -/

/-- Blanks within a line. -/
abbrev Blanks : Type := {bs : List Char // ∀ b ∈ bs, Text.isBlank b = true ∧ b ≠ '\n'}

namespace Blanks

def none : Blanks := ⟨[], List.forall_mem_nil _⟩

def single (b : Char) (h : Text.isBlank b = true ∧ b ≠ '\n') : Blanks :=
  ⟨[b], List.forall_mem_singleton.2 h⟩

theorem blank (bs : Blanks) : ∀ b ∈ bs.1, Text.isBlank b = true := fun b hb => (bs.2 b hb).1

theorem newline_not_mem (bs : Blanks) : '\n' ∉ bs.1 := fun h => (bs.2 _ h).2 rfl

end Blanks

inductive Leader where
  | hash
  | semicolon

def Leader.char : Leader → Char
  | hash => '#'
  | semicolon => ';'

inductive LineEnd where
  | feed
  | returnFeed

def LineEnd.chars : LineEnd → List Char
  | feed => ['\n']
  | returnFeed => ['\r', '\n']

/-- What is free in the line of a directive. -/
structure Style where
  leader : Leader
  before : Blanks
  afterLeader : Blanks
  afterColon : Blanks
  after : Blanks
  lineEnd : LineEnd

namespace Directive

def keyword : Directive → List Char
  | check _ => "CHECK:".toList
  | label _ => "CHECK-LABEL:".toList
  | next _ => "CHECK-NEXT:".toList
  | empty => "CHECK-EMPTY:".toList
  | comment _ => "COM:".toList

def text : Directive → List Char
  | check p => p.toList
  | label p => p.toList
  | next p => p.toList
  | empty => []
  | comment t => t.toList

/-- The text stays in its line, and no blank stands at its ends. -/
def Printable (d : Directive) : Prop :=
  '\n' ∉ d.text ∧ (∀ c ∈ d.text.head?, Text.isBlank c = false) ∧
    ∀ c ∈ d.text.getLast?, Text.isBlank c = false

instance (d : Directive) : Decidable d.Printable :=
  -- The characters of the text are tried, not all characters.
  have : Decidable (∀ c ∈ d.text.head?, Text.isBlank c = false) := Option.decidableForallMem _
  have : Decidable (∀ c ∈ d.text.getLast?, Text.isBlank c = false) := Option.decidableForallMem _
  inferInstanceAs (Decidable (_ ∧ _ ∧ _))

theorem Printable.trim_text {d : Directive} (h : d.Printable) : Text.trim d.text = d.text :=
  Text.trim_eq_self h.2.1 h.2.2

end Directive

/-- The line of a directive, without its end. -/
def Style.line (s : Style) (d : Directive) : List Char :=
  s.before.1 ++ s.leader.char :: (s.afterLeader.1 ++ (d.keyword ++
    (s.afterColon.1 ++ d.text ++ s.after.1)))

/-- The lines of directives. The last one has its line end only if `final` is set. -/
def print (final : Bool) : List (Style × Directive) → List Char
  | [] => []
  | [(s, d)] => s.line d ++ if final then s.lineEnd.chars else []
  | (s, d) :: ds => s.line d ++ (s.lineEnd.chars ++ print final ds)

/-! ## Reading a line -/

namespace Directive

theorem parse?_of_trim_eq {l m : List Char} (h : Text.trim l = Text.trim m) :
    parse? l = parse? m := by
  unfold parse? comment?
  rw [h]

theorem parse?_dropReturn (l : List Char) : parse? (Text.dropReturn l) = parse? l :=
  parse?_of_trim_eq (Text.trim_dropReturn l)

/-- A keyword has no blank at its ends and stays in its line. -/
theorem exists_keyword_eq (d : Directive) :
    ∃ k, '\n' ∉ k ∧ d.keyword = 'C' :: (k ++ [':']) := by
  cases d with
  | check => exact ⟨"HECK".toList, by decide, rfl⟩
  | label => exact ⟨"HECK-LABEL".toList, by decide, rfl⟩
  | next => exact ⟨"HECK-NEXT".toList, by decide, rfl⟩
  | empty => exact ⟨"HECK-EMPTY".toList, by decide, rfl⟩
  | comment => exact ⟨"OM".toList, by decide, rfl⟩

theorem newline_not_mem_keyword (d : Directive) : '\n' ∉ d.keyword := by
  obtain ⟨k, hk, h⟩ := d.exists_keyword_eq
  simp [h, hk]

theorem comment?_append {bs : List Char} (h : ∀ b ∈ bs, Text.isBlank b = true) (c : Leader)
    (r : List Char) :
    comment? (bs ++ c.char :: r) = some (Text.trimLeft (Text.trimRight r)) := by
  rw [comment?, Text.trim_blank_append h]
  cases c with
  | hash =>
    rw [Leader.char, Text.trim_cons_of_not_blank (by decide)]
    rfl
  | semicolon =>
    rw [Leader.char, Text.trim_cons_of_not_blank (by decide)]
    rfl

/-- A comment that starts with the keyword of a directive and goes on with its text. -/
theorem parse?_of_comment? {line rest : List Char} {d : Directive}
    (h : comment? line = some (d.keyword ++ rest)) (ht : Text.trim rest = d.text) :
    parse? line = some d := by
  rw [parse?, h]
  have hpattern {p : String} (h : Text.trim rest = p.toList) :
      String.ofList (Text.trim rest) = p := by
    rw [h, String.ofList_toList]
  -- The keywords that are tried before the right one stop within it, so the search computes.
  cases d with
  | check p => exact congrArg (fun p => some (check p)) (hpattern ht)
  | label p => exact congrArg (fun p => some (label p)) (hpattern ht)
  | next p => exact congrArg (fun p => some (next p)) (hpattern ht)
  | empty => rfl
  | comment t => exact congrArg (fun t => some (comment t)) (hpattern ht)

/-- A comment line with a keyword is read up to the blanks around leader, keyword and text. -/
theorem parse?_append {bs cs rest : List Char} {d : Directive}
    (hbs : ∀ b ∈ bs, Text.isBlank b = true) (hcs : ∀ b ∈ cs, Text.isBlank b = true) (c : Leader)
    (ht : Text.trim rest = d.text) :
    parse? (bs ++ c.char :: (cs ++ (d.keyword ++ rest))) = some d := by
  obtain ⟨k, -, hk⟩ := d.exists_keyword_eq
  have hright : Text.trimRight (cs ++ (d.keyword ++ rest)) =
      cs ++ (d.keyword ++ Text.trimRight rest) := by
    have hcolon : Text.isBlank ':' = false := by decide
    have h := Text.trimRight_append_cons_of_not_blank (cs ++ 'C' :: k) hcolon rest
    simpa [hk] using h
  have hleft : Text.trimLeft (cs ++ (d.keyword ++ Text.trimRight rest)) =
      d.keyword ++ Text.trimRight rest := by
    rw [Text.trimLeft_append_of_blank hcs, hk]
    exact Text.trimLeft_cons_of_not_blank (by decide) _
  have hcomment : comment? (bs ++ c.char :: (cs ++ (d.keyword ++ rest))) =
      some (d.keyword ++ Text.trimRight rest) := by
    rw [comment?_append hbs, hright, hleft]
  apply parse?_of_comment? hcomment
  rw [Text.trim_trimRight, ht]

end Directive

/-! ## Reading printed lines -/

namespace Style

theorem parse?_line (s : Style) {d : Directive} (h : d.Printable) :
    Directive.parse? (s.line d) = some d := by
  apply Directive.parse?_append s.before.blank s.afterLeader.blank
  rw [Text.trim_append_of_blank _ s.after.blank, Text.trim_blank_append s.afterColon.blank,
    h.trim_text]

theorem newline_not_mem_line (s : Style) {d : Directive} (h : d.Printable) : '\n' ∉ s.line d := by
  have hleader : '\n' ≠ s.leader.char := by cases s.leader <;> decide
  simp [line, s.before.newline_not_mem, s.afterLeader.newline_not_mem,
    s.afterColon.newline_not_mem, s.after.newline_not_mem, d.newline_not_mem_keyword, h.1, hleader]

theorem line_ne_nil (s : Style) (d : Directive) : s.line d ≠ [] :=
  List.append_ne_nil_of_right_ne_nil _ (List.cons_ne_nil _ _)

end Style

/-- A line is split off at either line end. -/
theorem map_parse?_lines_append {l : List Char} (h : '\n' ∉ l) (e : LineEnd) (r : List Char) :
    (Text.lines (l ++ (e.chars ++ r))).map Directive.parse? =
      Directive.parse? l :: (Text.lines r).map Directive.parse? := by
  cases e with
  | feed =>
    show (Text.lines (l ++ '\n' :: r)).map _ = _
    rw [Text.lines_append_newline h, List.map_cons, Directive.parse?_dropReturn]
  | returnFeed =>
    have hl : '\n' ∉ l ++ ['\r'] := by simp [h]
    rw [show l ++ (LineEnd.returnFeed.chars ++ r) = (l ++ ['\r']) ++ '\n' :: r by
      simp [LineEnd.chars], Text.lines_append_newline hl, List.map_cons, Text.dropReturn_concat]

/-- Each printed line is one directive. -/
theorem map_parse?_print (final : Bool) {ds : List (Style × Directive)}
    (h : ∀ p ∈ ds, p.2.Printable) :
    (Text.lines (print final ds)).map Directive.parse? = (ds.map Prod.snd).map some := by
  fun_induction print final ds with
  | case1 => rfl
  | case2 s d =>
    have hd : d.Printable := h (s, d) List.mem_cons_self
    cases final with
    | false =>
      have hline := Text.lines_of_not_mem (s.newline_not_mem_line hd) (s.line_ne_nil d)
      simp [hline, s.parse?_line hd]
    | true =>
      have hsplit := map_parse?_lines_append (s.newline_not_mem_line hd) s.lineEnd []
      rw [List.append_nil, s.parse?_line hd] at hsplit
      exact hsplit
  | case3 s d ds _ ih =>
    obtain ⟨hd, hds⟩ := List.forall_mem_cons.1 h
    rw [map_parse?_lines_append (s.newline_not_mem_line hd), s.parse?_line hd, ih hds]
    rfl

/-! ## Reading check files -/

namespace CheckFile

/-- A check file of directives only. -/
theorem parse_of_map_parse? {content : String} {ds : List Directive}
    (h : (Text.lines content.toList).map Directive.parse? = ds.map some) :
    parse content = ⟨ds, ""⟩ := by
  have hdirectives : (Text.lines content.toList).filterMap Directive.parse? = ds := by
    have hid := List.filterMap_map (f := Directive.parse?) (g := id)
      (l := Text.lines content.toList)
    rw [Function.id_comp] at hid
    rw [← hid, h, List.filterMap_map]
    exact List.filterMap_some
  have hbody : (Text.lines content.toList).filter (fun l => (Directive.parse? l).isNone) = [] := by
    refine List.filter_eq_nil_iff.2 fun l hl => ?_
    have hm : Directive.parse? l ∈ (Text.lines content.toList).map Directive.parse? :=
      List.mem_map_of_mem hl
    rw [h] at hm
    obtain ⟨d, -, hd⟩ := List.mem_map.1 hm
    rw [← hd]
    exact Bool.false_ne_true
  show CheckFile.mk _ _ = _
  rw [hdirectives, hbody]
  rfl

/-- **Reading undoes printing.** A list of directives, each printed in a style of its own, reads
back as that list, and nothing is left over as body. -/
theorem parse_print (final : Bool) (ds : List (Style × Directive))
    (h : ∀ p ∈ ds, p.2.Printable) :
    parse (String.ofList (print final ds)) = ⟨ds.map Prod.snd, ""⟩ := by
  apply parse_of_map_parse?
  rw [String.toList_ofList]
  exact map_parse?_print final h

/-- A pattern that looks like a directive, a line without text and an empty remark, with an em space
and a carriage return as blanks and no line end after the last line. -/
theorem parse_print_mixed :
    parse (String.ofList (print false [
      (⟨.semicolon, .single '\u2003' (by decide), .none, .none, .single '\r' (by decide),
        .returnFeed⟩, .check "# CHECK-NEXT: ret"),
      (⟨.hash, .none, .single '\t' (by decide), .none, .none, .feed⟩, .empty),
      (⟨.semicolon, .none, .none, .single ' ' (by decide), .none, .feed⟩, .comment "")])) =
    ⟨[.check "# CHECK-NEXT: ret", .empty, .comment ""], ""⟩ :=
  parse_print false _ (by decide)

end CheckFile

end AttAsm.Check

import AttAsm.Proofs.DirectiveText
import Mathlib.Data.List.Basic

/-!
# The grammar of directives

A directive is written as a comment: a leader, blanks, a keyword with its colon, and a rest that is
the directive's text up to the blanks around it (`Directive.Written`). A comment has one body
(`Directive.comment?_eq_some_cons_iff`), so it starts with a keyword in one way.

Every line that is written so is read as its directive. One kind of line is read besides: the
keyword for an empty line is recognised without its colon, so that a remark which starts with the
letters of that keyword becomes an expectation (`Directive.LacksColon`).

Main statement: `Directive.read_iff_written_or_lacksColon`.
-/

namespace AttAsm.Check.Directive

/-! ## Comments -/

/-- Between the blanks around it, the line is a leader, blanks and then `body`. -/
def IsComment (line body : List Char) : Prop :=
  ∃ (c : Leader) (bs : List Char), (∀ b ∈ bs, Text.isBlank b = true) ∧
    Text.trim line = c.char :: (bs ++ body)

theorem isComment_of_comment? {line body : List Char} (h : comment? line = some body) :
    IsComment line body := by
  unfold comment? at h
  split at h
  case h_1 r ht =>
    obtain ⟨bs, hbs, hr⟩ := Text.exists_eq_append_trimLeft r
    cases h
    exact ⟨.hash, bs, hbs, ht.trans (congrArg ('#' :: ·) hr)⟩
  case h_2 r ht =>
    obtain ⟨bs, hbs, hr⟩ := Text.exists_eq_append_trimLeft r
    cases h
    exact ⟨.semicolon, bs, hbs, ht.trans (congrArg (';' :: ·) hr)⟩
  case h_3 => cases h

/-- The body of a comment is what follows all the blanks behind the leader. -/
theorem comment?_eq_some_cons_iff {line r : List Char} {c : Char} (hc : Text.isBlank c = false) :
    comment? line = some (c :: r) ↔ IsComment line (c :: r) := by
  refine ⟨isComment_of_comment?, ?_⟩
  rintro ⟨leader, bs, hbs, ht⟩
  have hbody : Text.trimLeft (bs ++ c :: r) = c :: r := by
    rw [Text.trimLeft_append_of_blank hbs, Text.trimLeft_cons_of_not_blank hc]
  unfold comment?
  rw [ht]
  cases leader with
  | hash => exact congrArg some hbody
  | semicolon => exact congrArg some hbody

/-! ## Written directives -/

/-- The line of a directive by the grammar: a comment that starts with its keyword and goes on with
its text. The directive for an empty line has no text and takes any rest. -/
def Written (line : List Char) (d : Directive) : Prop :=
  ∃ rest, IsComment line (d.keyword ++ rest) ∧ (d = empty ∨ Text.trim rest = d.text)

/-- A comment that starts with the keyword for an empty line, but for its colon. -/
def LacksColon (line : List Char) : Prop :=
  ∃ rest, IsComment line ("CHECK-EMPTY".toList ++ rest) ∧ rest.head? ≠ some ':'

variable {line : List Char} {d : Directive}

theorem Written.comment? (h : Written line d) :
    ∃ rest, comment? line = some (d.keyword ++ rest) ∧ (d = empty ∨ Text.trim rest = d.text) := by
  obtain ⟨rest, hc, ht⟩ := h
  obtain ⟨k, -, hk⟩ := d.exists_keyword_eq
  refine ⟨rest, ?_, ht⟩
  rw [hk] at hc ⊢
  exact (comment?_eq_some_cons_iff (by decide)).2 hc

theorem LacksColon.comment? (h : LacksColon line) :
    ∃ rest, comment? line = some ("CHECK-EMPTY".toList ++ rest) ∧ rest.head? ≠ some ':' := by
  obtain ⟨rest, hc, hcolon⟩ := h
  exact ⟨rest, (comment?_eq_some_cons_iff (c := 'C') (by decide)).2 hc, hcolon⟩

theorem Written.parse? (h : Written line d) : parse? line = some d := by
  obtain ⟨rest, hc, rfl | ht⟩ := h.comment?
  · rw [Directive.parse?, hc]
    rfl
  · exact parse?_of_comment? hc ht

theorem LacksColon.parse? (h : LacksColon line) : parse? line = some empty := by
  obtain ⟨rest, hc, -⟩ := h.comment?
  rw [Directive.parse?, hc]
  -- The two keywords in front of this one stop within its letters, so the search computes.
  rfl

/-- The colon is there or it is not, because the line has one body. -/
theorem LacksColon.not_written (h : LacksColon line) : ¬ Written line empty := by
  intro hw
  obtain ⟨rest, hc, hcolon⟩ := h.comment?
  obtain ⟨r, hr, -⟩ := hw.comment?
  have hbody : "CHECK-EMPTY".toList ++ rest = "CHECK-EMPTY".toList ++ ':' :: r :=
    Option.some.inj (hc.symm.trans hr)
  rw [List.append_cancel_left hbody] at hcolon
  exact hcolon rfl

/-- What is read was written, or lacks the colon. -/
theorem written_or_of_parse? (h : parse? line = some d) :
    Written line d ∨ d = empty ∧ LacksColon line := by
  obtain ⟨body, hbody, hfind⟩ := Option.bind_eq_some_iff.1 h
  obtain ⟨p, hp, hmap⟩ := List.exists_of_findSome?_eq_some hfind
  obtain ⟨rest, hrest, hd⟩ := Option.map_eq_some_iff.1 hmap
  have hcomment : IsComment line (p.1 ++ rest) := by
    rw [List.isPrefixOf?_eq_some_iff_append_eq.1 hrest]
    exact isComment_of_comment? hbody
  subst hd
  simp only [keywords, List.mem_cons, List.not_mem_nil, or_false] at hp
  -- The third keyword has no colon of its own: the rest may supply it.
  rcases hp with rfl | rfl | rfl | rfl | rfl
  · exact .inl ⟨rest, hcomment, .inr String.toList_ofList.symm⟩
  · exact .inl ⟨rest, hcomment, .inr String.toList_ofList.symm⟩
  · by_cases hcolon : rest.head? = some ':'
    · obtain ⟨r, rfl⟩ := List.head?_eq_some_iff.1 hcolon
      exact .inl ⟨r, hcomment, .inl rfl⟩
    · exact .inr ⟨rfl, rest, hcomment, hcolon⟩
  · exact .inl ⟨rest, hcomment, .inr String.toList_ofList.symm⟩
  · exact .inl ⟨rest, hcomment, .inr String.toList_ofList.symm⟩

/-- **What is read as a directive.** A line is read as a directive if it is written so, or if it
lacks the colon behind the keyword for an empty line. Reading therefore follows the grammar on a line,
for all directives, exactly if the line does not lack that colon. -/
theorem read_iff_written_or_lacksColon (line : List Char) :
    (∀ d, parse? line = some d ↔ Written line d ∨ d = empty ∧ LacksColon line) ∧
    ((∀ d, parse? line = some d ↔ Written line d) ↔ ¬ LacksColon line) := by
  have hread (d : Directive) :
      parse? line = some d ↔ Written line d ∨ d = empty ∧ LacksColon line := by
    refine ⟨written_or_of_parse?, ?_⟩
    rintro (h | ⟨rfl, h⟩)
    · exact h.parse?
    · exact h.parse?
  refine ⟨hread, fun hgrammar hlacks => ?_, fun hlacks d => ?_⟩
  · exact hlacks.not_written ((hgrammar empty).1 hlacks.parse?)
  · rw [hread, or_iff_left fun h => hlacks h.2]

/-- A remark in prose is read as the expectation of an empty line. -/
theorem prose_read_as_empty :
    parse? "# CHECK-EMPTY lines are allowed here".toList = some empty ∧
    ∀ d, ¬ Written "# CHECK-EMPTY lines are allowed here".toList d := by
  have hlacks : LacksColon "# CHECK-EMPTY lines are allowed here".toList :=
    ⟨" lines are allowed here".toList, isComment_of_comment? rfl, by decide⟩
  refine ⟨hlacks.parse?, fun d hd => ?_⟩
  obtain rfl : empty = d := Option.some.inj (hlacks.parse?.symm.trans hd.parse?)
  exact hlacks.not_written hd

end AttAsm.Check.Directive

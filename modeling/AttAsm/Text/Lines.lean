/-!
# Lines

A line ends at a line feed, and one carriage return directly before that line feed belongs to the
end. A carriage return elsewhere stays in its line, and a text that ends in a line feed has no empty
line after it.
-/

namespace AttAsm.Text

/-- The lines of a text, without their ends. -/
def lines : List Char → List (List Char)
  | [] => []
  | '\n' :: r => [] :: lines r
  | '\r' :: '\n' :: r => [] :: lines r
  | c :: r =>
    match lines r with
    | [] => [[c]]
    | l :: ls => (c :: l) :: ls

/-- Lines joined by line feeds. -/
def joinLines : List (List Char) → List Char
  | [] => []
  | [l] => l
  | l :: ls => l ++ '\n' :: joinLines ls

/-- `pattern` stands somewhere in the line. -/
def contains (pattern : List Char) : List Char → Bool
  | [] => pattern.isEmpty
  | c :: r => pattern.isPrefixOf (c :: r) || contains pattern r

theorem contains_iff {pattern line : List Char} :
    contains pattern line = true ↔ pattern <:+: line := by
  induction line with
  | nil => simp [contains]
  | cons c r ih =>
    rw [contains, Bool.or_eq_true, List.isPrefixOf_iff_prefix, ih, List.infix_cons_iff]

end AttAsm.Text

import AttAsm.Proofs.DirectiveText

/-!
# Directives line by line

A text is a line without a line feed, or such a line, a line feed and a text (`Text.cut_induction`).
What is read line by line, with no regard to a carriage return at the end and with nothing on an empty
line, can therefore be read piece by piece (`Text.filterMap_lines_append`), with either line end
(`Text.filterMap_lines_returnFeeds`) and from lines that were joined
(`Text.filterMap_lines_joinLines`). The splits themselves do not agree: a text that ends in a line feed
has no empty line after it.

Main statement: `Check.CheckFile.directives_line_by_line`.
-/

namespace AttAsm

namespace Text

/-- Texts, with a line and its line feed taken off at a time. -/
theorem cut_induction {motive : List Char → Prop} (last : ∀ l, '\n' ∉ l → motive l)
    (cut : ∀ l r, '\n' ∉ l → motive r → motive (l ++ '\n' :: r)) (cs : List Char) : motive cs := by
  induction h : cs.length using Nat.strong_induction_on generalizing cs with
  | _ n ih =>
    by_cases hn : '\n' ∈ cs
    · obtain ⟨l, r, rfl, hl⟩ := List.eq_append_cons_of_mem hn
      rw [List.length_append, List.length_cons] at h
      exact cut l r hl (ih r.length (by omega) r rfl)
    · exact last cs hn

/-- Puts a carriage return in front of every line feed. -/
def returnFeeds (cs : List Char) : List Char :=
  cs.flatMap fun c => if c = '\n' then ['\r', '\n'] else [c]

theorem returnFeeds_of_not_mem {l : List Char} (h : '\n' ∉ l) : returnFeeds l = l := by
  induction l with
  | nil => rfl
  | cons c l ih =>
    obtain ⟨hc, hl⟩ := not_or.1 (List.mem_cons.not.1 h)
    rw [returnFeeds, List.flatMap_cons, if_neg (Ne.symm hc)]
    exact congrArg (c :: ·) (ih hl)

theorem returnFeeds_append_newline {l : List Char} (h : '\n' ∉ l) (r : List Char) :
    returnFeeds (l ++ '\n' :: r) = l ++ ['\r'] ++ '\n' :: returnFeeds r := by
  have hl : returnFeeds l = l := returnFeeds_of_not_mem h
  unfold returnFeeds at hl ⊢
  rw [List.flatMap_append, hl, List.flatMap_cons, if_pos rfl, List.append_assoc]
  rfl

section

variable {β : Type} {F : List Char → Option β}

theorem filterMap_cons_eq_append (F : List Char → Option β) (l : List Char)
    (ls : List (List Char)) : (l :: ls).filterMap F = (F l).toList ++ ls.filterMap F := by
  rw [List.filterMap_cons]
  cases F l <;> rfl

theorem filterMap_lines_of_not_mem (h0 : F [] = none) {l : List Char} (h : '\n' ∉ l) :
    (lines l).filterMap F = (F l).toList := by
  by_cases hl : l = []
  · rw [hl, h0]
    rfl
  · rw [lines_of_not_mem h hl, filterMap_cons_eq_append, List.filterMap_nil, List.append_nil]

theorem filterMap_lines_append_newline (hF : ∀ l, F (dropReturn l) = F l) {l : List Char}
    (h : '\n' ∉ l) (r : List Char) :
    (lines (l ++ '\n' :: r)).filterMap F = (F l).toList ++ (lines r).filterMap F := by
  rw [lines_append_newline h, filterMap_cons_eq_append, hF]

/-- Texts with a line feed between them are read one after the other. -/
theorem filterMap_lines_append (hF : ∀ l, F (dropReturn l) = F l) (h0 : F [] = none)
    (a b : List Char) :
    (lines (a ++ '\n' :: b)).filterMap F = (lines a).filterMap F ++ (lines b).filterMap F := by
  induction a using cut_induction with
  | last l h => rw [filterMap_lines_append_newline hF h, filterMap_lines_of_not_mem h0 h]
  | cut l r h ih =>
    rw [List.append_assoc, List.cons_append, filterMap_lines_append_newline hF h, ih,
      filterMap_lines_append_newline hF h, List.append_assoc]

/-- Which line ends a text has does not matter. -/
theorem filterMap_lines_returnFeeds (hF : ∀ l, F (dropReturn l) = F l) (cs : List Char) :
    (lines (returnFeeds cs)).filterMap F = (lines cs).filterMap F := by
  induction cs using cut_induction with
  | last l h => rw [returnFeeds_of_not_mem h]
  | cut l r h ih =>
    have hr : '\n' ∉ l ++ ['\r'] := by simp [h]
    have hl : F (l ++ ['\r']) = F l := by rw [← hF, dropReturn_concat]
    rw [returnFeeds_append_newline h, filterMap_lines_append_newline hF hr, hl, ih,
      filterMap_lines_append_newline hF h]

/-- Lines that were joined are read as before. -/
theorem filterMap_lines_joinLines (hF : ∀ l, F (dropReturn l) = F l) (h0 : F [] = none)
    {ls : List (List Char)} (hn : ∀ l ∈ ls, '\n' ∉ l) :
    (lines (joinLines ls)).filterMap F = ls.filterMap F := by
  fun_induction joinLines ls with
  | case1 => rfl
  | case2 l =>
    rw [filterMap_lines_of_not_mem h0 (hn l List.mem_cons_self), filterMap_cons_eq_append,
      List.filterMap_nil, List.append_nil]
  | case3 l ls _ ih =>
    obtain ⟨hl, hls⟩ := List.forall_mem_cons.1 hn
    rw [filterMap_lines_append_newline hF hl, ih hls, filterMap_cons_eq_append]

end

end Text

namespace Check.CheckFile

open Directive (parse? parse?_dropReturn)

theorem directives_parse (content : String) :
    (parse content).directives = (Text.lines content.toList).filterMap parse? := rfl

theorem body_parse (content : String) : (parse content).body =
    String.ofList (Text.joinLines
      ((Text.lines content.toList).filter fun l => (parse? l).isNone)) := rfl

theorem directives_parse_ofList (cs : List Char) :
    (parse (String.ofList cs)).directives = (Text.lines cs).filterMap parse? := by
  rw [directives_parse, String.toList_ofList]

/-- **Directives are read line by line.** The directives of two texts with a line feed between them
are those of the one and then those of the other. Carriage returns in front of the line feeds do not
matter. A body has no directives left. -/
theorem directives_line_by_line :
    (∀ a b : String, (parse (a ++ "\n" ++ b)).directives =
      (parse a).directives ++ (parse b).directives) ∧
    (∀ a : String, (parse (String.ofList (Text.returnFeeds a.toList))).directives =
      (parse a).directives) ∧
    ∀ c : String, (parse (parse c).body).directives = [] := by
  have h0 : parse? [] = none := rfl
  refine ⟨fun a b => ?_, fun a => ?_, fun c => ?_⟩
  · have hab : (a ++ "\n" ++ b).toList = a.toList ++ '\n' :: b.toList := by simp
    rw [directives_parse, hab, Text.filterMap_lines_append parse?_dropReturn h0]
    rfl
  · rw [directives_parse_ofList, Text.filterMap_lines_returnFeeds parse?_dropReturn]
    rfl
  · have hlines : ∀ l ∈ (Text.lines c.toList).filter fun l => (parse? l).isNone, '\n' ∉ l :=
      fun l hl => Text.newline_not_mem_of_mem_lines (List.mem_filter.1 hl).1
    rw [body_parse, directives_parse_ofList,
      Text.filterMap_lines_joinLines parse?_dropReturn h0 hlines]
    exact List.filterMap_eq_nil_iff.2 fun l hl =>
      Option.isNone_iff_eq_none.1 (List.mem_filter.1 hl).2

end Check.CheckFile

end AttAsm

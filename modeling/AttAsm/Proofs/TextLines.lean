import AttAsm.Text.Blank
import AttAsm.Text.Lines
import Mathlib.Data.List.TakeWhile
import Mathlib.Tactic.SplitIfs

/-!
# Lines and blanks

What splitting into lines and trimming do to texts that are put together.

Main statements: a line in front of a line feed is split off without its carriage return
(`lines_append_newline`), joined lines are found again up to these (`map_lines_joinLines`), and
trimming ignores blanks at both ends (`trim_append_of_blank`, `trim_blank_append`).
-/

namespace AttAsm.Text

/-! ## Trimming -/

theorem trimLeft_cons_of_not_blank {c : Char} (h : isBlank c = false) (cs : List Char) :
    trimLeft (c :: cs) = c :: cs :=
  List.dropWhile_cons_of_neg (by simp [h])

theorem trimLeft_eq_nil_iff {cs : List Char} : trimLeft cs = [] ↔ ∀ c ∈ cs, isBlank c = true :=
  List.dropWhile_eq_nil_iff

theorem trimRight_eq_nil_iff {cs : List Char} : trimRight cs = [] ↔ ∀ c ∈ cs, isBlank c = true := by
  rw [trimRight, List.reverse_eq_nil_iff, List.dropWhile_eq_nil_iff]
  simp

theorem trimRight_append_of_blank (a : List Char) {b : List Char}
    (h : ∀ c ∈ b, isBlank c = true) : trimRight (a ++ b) = trimRight a := by
  have hb : ∀ c ∈ b.reverse, isBlank c = true := fun c hc => h c (List.mem_reverse.1 hc)
  rw [trimRight, List.reverse_append, List.dropWhile_append_of_pos hb]
  rfl

theorem trimRight_append_of_ne_nil (a : List Char) {b : List Char} (h : trimRight b ≠ []) :
    trimRight (a ++ b) = a ++ trimRight b := by
  have hb : (b.reverse.dropWhile isBlank).isEmpty = false := by
    rw [List.isEmpty_eq_false_iff]
    intro hn
    exact h (congrArg List.reverse hn)
  rw [trimRight, List.reverse_append, List.dropWhile_append, hb]
  simp [trimRight]

theorem trimRight_cons_of_not_blank {c : Char} (h : isBlank c = false) (cs : List Char) :
    trimRight (c :: cs) = c :: trimRight cs := by
  by_cases hcs : trimRight cs = []
  · have hc : trimRight [c] = [c] := by simp [trimRight, h]
    rw [← List.singleton_append, trimRight_append_of_blank _ (trimRight_eq_nil_iff.1 hcs), hc, hcs]
  · exact trimRight_append_of_ne_nil [c] hcs

theorem trimRight_append_cons_of_not_blank (a : List Char) {c : Char} (h : isBlank c = false)
    (b : List Char) : trimRight (a ++ c :: b) = a ++ c :: trimRight b := by
  have hc := trimRight_cons_of_not_blank h b
  rw [trimRight_append_of_ne_nil a (by rw [hc]; exact List.cons_ne_nil _ _), hc]

theorem trim_cons_of_not_blank {c : Char} (h : isBlank c = false) (cs : List Char) :
    trim (c :: cs) = c :: trimRight cs := by
  rw [trim, trimLeft_cons_of_not_blank h, trimRight_cons_of_not_blank h]

theorem trim_cons_of_blank {c : Char} (h : isBlank c = true) (cs : List Char) :
    trim (c :: cs) = trim cs :=
  congrArg trimRight (List.dropWhile_cons_of_pos h)

theorem trimLeft_append_of_blank {bs : List Char} (h : ∀ b ∈ bs, isBlank b = true)
    (cs : List Char) : trimLeft (bs ++ cs) = trimLeft cs :=
  List.dropWhile_append_of_pos h

theorem trim_blank_append {bs : List Char} (h : ∀ b ∈ bs, isBlank b = true) (cs : List Char) :
    trim (bs ++ cs) = trim cs :=
  congrArg trimRight (trimLeft_append_of_blank h cs)

theorem trim_append_of_blank (cs : List Char) {bs : List Char} (h : ∀ b ∈ bs, isBlank b = true) :
    trim (cs ++ bs) = trim cs := by
  unfold trim
  have hl : trimLeft (cs ++ bs) = if trimLeft cs = [] then [] else trimLeft cs ++ bs := by
    have hb : bs.dropWhile isBlank = [] := trimLeft_eq_nil_iff.2 h
    unfold trimLeft
    rw [List.dropWhile_append, hb]
    simp only [List.isEmpty_iff]
  rw [hl]
  split_ifs with hc
  · rw [hc]
  · exact trimRight_append_of_blank _ h

/-- Only blanks are cut off at the front. -/
theorem exists_eq_append_trimLeft (cs : List Char) :
    ∃ bs, (∀ b ∈ bs, isBlank b = true) ∧ cs = bs ++ trimLeft cs :=
  ⟨cs.takeWhile isBlank, fun _ hb => List.mem_takeWhile_imp hb,
    List.takeWhile_append_dropWhile.symm⟩

/-- Only blanks are cut off at the end. -/
theorem exists_eq_trimRight_append (cs : List Char) :
    ∃ bs, (∀ b ∈ bs, isBlank b = true) ∧ cs = trimRight cs ++ bs := by
  refine ⟨(cs.reverse.takeWhile isBlank).reverse, fun b hb => ?_, ?_⟩
  · exact List.mem_takeWhile_imp (List.mem_reverse.1 hb)
  · rw [trimRight, ← List.reverse_append, List.takeWhile_append_dropWhile, List.reverse_reverse]

theorem trim_trimRight (cs : List Char) : trim (trimRight cs) = trim cs := by
  obtain ⟨bs, hbs, hcs⟩ := exists_eq_trimRight_append cs
  exact (trim_append_of_blank (trimRight cs) hbs).symm.trans (congrArg trim hcs.symm)

/-- Without blanks at its ends a text stays as it is. -/
theorem trim_eq_self {cs : List Char} (hh : ∀ c ∈ cs.head?, isBlank c = false)
    (hl : ∀ c ∈ cs.getLast?, isBlank c = false) : trim cs = cs := by
  have hleft : trimLeft cs = cs := by
    cases cs with
    | nil => rfl
    | cons c cs => exact trimLeft_cons_of_not_blank (hh c rfl) cs
  rw [trim, hleft]
  rcases List.eq_nil_or_concat cs with rfl | ⟨as, c, rfl⟩
  · rfl
  · rw [List.concat_eq_append] at hl ⊢
    exact trimRight_append_cons_of_not_blank as (hl c (by simp)) []

theorem trim_infix (cs : List Char) : trim cs <:+: cs := by
  obtain ⟨bs, -, h⟩ := exists_eq_trimRight_append (trimLeft cs)
  have hp : trim cs <+: trimLeft cs := ⟨bs, h.symm⟩
  exact hp.isInfix.trans (List.dropWhile_suffix isBlank).isInfix

/-! ## Splitting into lines -/

/-- A line without a carriage return at its end. -/
def dropReturn : List Char → List Char
  | [] => []
  | ['\r'] => []
  | c :: r => c :: dropReturn r

theorem exists_eq_dropReturn_append (l : List Char) :
    l = dropReturn l ∨ l = dropReturn l ++ ['\r'] := by
  fun_induction dropReturn l with
  | case1 => exact .inl rfl
  | case2 => exact .inr rfl
  | case3 c r _ ih => exact ih.imp (congrArg (c :: ·)) (congrArg (c :: ·))

theorem dropReturn_concat (l : List Char) : dropReturn (l ++ ['\r']) = l := by
  induction l with
  | nil => rfl
  | cons c l ih =>
    have hne : l ++ ['\r'] ≠ [] := List.append_ne_nil_of_right_ne_nil _ (List.cons_ne_nil _ _)
    rw [List.cons_append, dropReturn.eq_3 _ _ fun _ h => hne h, ih]

theorem trim_dropReturn (l : List Char) : trim (dropReturn l) = trim l := by
  rcases exists_eq_dropReturn_append l with h | h
  · rw [← h]
  · have hr : ∀ b ∈ ['\r'], isBlank b = true := List.forall_mem_singleton.2 (by decide)
    calc trim (dropReturn l) = trim (dropReturn l ++ ['\r']) := (trim_append_of_blank _ hr).symm
      _ = trim l := by rw [← h]

theorem lines_cons {c : Char} {r : List Char} (hn : c ≠ '\n')
    (hr : c = '\r' → r.head? ≠ some '\n') :
    lines (c :: r) = match lines r with
      | [] => [[c]]
      | l :: ls => (c :: l) :: ls := by
  apply lines.eq_4
  · exact hn
  · intro r' hc h
    exact hr hc (by rw [h]; rfl)

/-- Without a line feed there is one line. -/
theorem lines_of_not_mem {l : List Char} (h : '\n' ∉ l) (hne : l ≠ []) : lines l = [l] := by
  induction l with
  | nil => exact absurd rfl hne
  | cons c l ih =>
    obtain ⟨hc, hl⟩ := not_or.1 (List.mem_cons.not.1 h)
    cases l with
    | nil => exact lines_cons (Ne.symm hc) (by simp)
    | cons d l =>
      have hd : (d :: l).head? ≠ some '\n' := by
        intro he
        cases he
        exact hl List.mem_cons_self
      rw [lines_cons (Ne.symm hc) fun _ => hd, ih hl (List.cons_ne_nil d l)]

/-- A line in front of a line feed is split off, without its carriage return. -/
theorem lines_append_newline {l : List Char} (h : '\n' ∉ l) (r : List Char) :
    lines (l ++ '\n' :: r) = dropReturn l :: lines r := by
  fun_induction dropReturn l with
  | case1 => rfl
  | case2 => rfl
  | case3 c l hl ih =>
    obtain ⟨hc, hl'⟩ := not_or.1 (List.mem_cons.not.1 h)
    rw [List.cons_append, lines_cons (Ne.symm hc), ih hl']
    intro hr hd
    cases l with
    | nil => exact hl hr rfl
    | cons d l =>
      cases hd
      exact hl' List.mem_cons_self

theorem newline_not_mem_of_mem_lines {cs l : List Char} (h : l ∈ lines cs) : '\n' ∉ l := by
  fun_induction lines cs generalizing l with
  | case1 => exact nomatch h
  | case2 r ih =>
    rcases List.mem_cons.1 h with rfl | h
    · exact List.not_mem_nil
    · exact ih h
  | case3 r ih =>
    rcases List.mem_cons.1 h with rfl | h
    · exact List.not_mem_nil
    · exact ih h
  | case4 c r hc _ hr ih =>
    rw [List.mem_singleton.1 h, List.mem_singleton]
    exact Ne.symm hc
  | case5 c r hc _ m ms hr ih =>
    rw [hr] at ih
    rcases List.mem_cons.1 h with rfl | h
    · exact List.mem_cons.not.2 (not_or.2 ⟨Ne.symm hc, ih List.mem_cons_self⟩)
    · exact ih (List.mem_cons_of_mem m h)

/-- Joined lines are found again up to carriage returns at their ends. -/
theorem map_lines_joinLines {β : Type} {F : List Char → β} (hF : ∀ l, F (dropReturn l) = F l)
    {ls : List (List Char)} (hn : ∀ l ∈ ls, '\n' ∉ l) (hne : ∀ l ∈ ls, l ≠ []) :
    (lines (joinLines ls)).map F = ls.map F := by
  fun_induction joinLines ls with
  | case1 => rfl
  | case2 l =>
    rw [lines_of_not_mem (hn l List.mem_cons_self) (hne l List.mem_cons_self)]
  | case3 l ls _ ih =>
    obtain ⟨hl, hls⟩ := List.forall_mem_cons.1 hn
    rw [lines_append_newline hl, List.map_cons, List.map_cons, hF,
      ih hls (List.forall_mem_cons.1 hne).2]

end AttAsm.Text

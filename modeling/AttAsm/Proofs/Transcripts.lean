import AttAsm.Proofs.DirectiveText
import AttAsm.Proofs.ScanSteps

/-!
# Transcripts

The transcript of an output is the check file that asks for its lines one after the other. It reads
back as one directive for each line (`parse_transcript`), and a scan of it stands before line `i` of
the output after `i` directives, or at the end of an output that is shorter (`scan_expecting`).

Main statement: an output meets its own transcript, and every output that meets it has its lines
(`validate_transcript`).
-/

namespace AttAsm.Check

/-- The line of a transcript that asks for a line. -/
def transcriptLine (l : List Char) : List Char :=
  if Text.trim l = [] then "# CHECK-EMPTY:".toList else "# CHECK-NEXT: ".toList ++ l

/-- The check file that asks for the lines of an output. -/
def transcript (output : String) : String :=
  String.ofList (Text.joinLines ((Text.lines output.toList).map transcriptLine))

/-- The directive that asks for a line, up to blanks around it. -/
def Directive.expecting (l : List Char) : Directive :=
  if Text.trim l = [] then .empty else .next (String.ofList (Text.trim l))

/-! ## Reading transcripts -/

namespace Directive

theorem parse?_transcriptLine (l : List Char) : parse? (transcriptLine l) = some (expecting l) := by
  unfold transcriptLine expecting
  split_ifs with h
  · decide
  · have hspace : ∀ b ∈ [' '], Text.isBlank b = true := List.forall_mem_singleton.2 (by decide)
    have htext : Text.trim (' ' :: l) = (next (String.ofList (Text.trim l))).text := by
      rw [Text.trim_cons_of_blank (by decide), text, String.toList_ofList]
    have hhead : "# CHECK-NEXT: ".toList = '#' :: ' ' :: ("CHECK-NEXT:".toList ++ [' ']) := by
      decide
    rw [hhead, List.cons_append, List.cons_append, List.append_assoc]
    exact parse?_append (List.forall_mem_nil _) hspace .hash htext

end Directive

theorem newline_not_mem_transcriptLine {l : List Char} (h : '\n' ∉ l) :
    '\n' ∉ transcriptLine l := by
  unfold transcriptLine
  split_ifs
  · decide
  · have hhead : '\n' ∉ "# CHECK-NEXT: ".toList := by decide
    exact List.mem_append.not.2 (not_or.2 ⟨hhead, h⟩)

theorem transcriptLine_ne_nil (l : List Char) : transcriptLine l ≠ [] := by
  unfold transcriptLine
  split_ifs
  · decide
  · exact List.append_ne_nil_of_left_ne_nil (by decide) l

/-- Each line of a transcript is one directive, and nothing else is in it. -/
theorem map_parse?_lines_transcript (output : String) :
    (Text.lines (transcript output).toList).map Directive.parse? =
      (Text.lines output.toList).map fun l => some (.expecting l) := by
  unfold transcript
  rw [String.toList_ofList, Text.map_lines_joinLines Directive.parse?_dropReturn, List.map_map]
  · exact List.map_congr_left fun l _ => Directive.parse?_transcriptLine l
  · intro m hm
    obtain ⟨l, hl, rfl⟩ := List.mem_map.1 hm
    exact newline_not_mem_transcriptLine (Text.newline_not_mem_of_mem_lines hl)
  · intro m hm
    obtain ⟨l, -, rfl⟩ := List.mem_map.1 hm
    exact transcriptLine_ne_nil l

theorem parse_transcript (output : String) :
    CheckFile.parse (transcript output) =
      ⟨(Text.lines output.toList).map .expecting, ""⟩ := by
  apply CheckFile.parse_of_map_parse?
  rw [map_parse?_lines_transcript, List.map_map]
  rfl

/-! ## Scanning for transcripts -/

namespace Directive

/-- An output has what its lines ask for. -/
theorem advance_expecting_self {lines : List (List Char)} {i : Nat} {l : List Char}
    (h : lines[i]? = some l) : (expecting l).advance lines i = .ok (i + 1) := by
  unfold expecting
  split_ifs with hl
  · exact advance_empty_eq_ok_iff.2 (.inl ⟨l, h, hl, rfl⟩)
  · refine advance_next_eq_ok_iff.2 ⟨l, h, ?_, rfl⟩
    rw [String.toList_ofList]
    exact Text.trim_infix l

/-- What an output has at index `i` when it meets what a line asks for there. -/
def Meets (lines : List (List Char)) (i : Nat) (l : List Char) : Prop :=
  (Text.trim l ≠ [] → ∃ m, lines[i]? = some m ∧ Text.trim l <:+: m) ∧
  (Text.trim l = [] → (∃ m, lines[i]? = some m ∧ Text.trim m = []) ∨ lines.length ≤ i)

/-- One step of a scan. The end of the output counts as blank and is not passed, so the scan stands
before line `i` or at the end. -/
theorem advance_expecting {lines : List (List Char)} {i j : Nat} {l : List Char}
    (h : (expecting l).advance lines (min i lines.length) = .ok j) :
    j = min (i + 1) lines.length ∧ Meets lines i l := by
  have hmin {m : List Char} (hm : lines[min i lines.length]? = some m) :
      min i lines.length = i ∧ i < lines.length := by
    have := (List.getElem?_eq_some_iff.1 hm).1
    omega
  unfold expecting at h
  split_ifs at h with hl
  · rcases advance_empty_eq_ok_iff.1 h with ⟨m, hm, hb, rfl⟩ | ⟨hm, rfl⟩
    · obtain ⟨hi, hlt⟩ := hmin hm
      rw [hi] at hm
      exact ⟨by omega, absurd hl, fun _ => .inl ⟨m, hm, hb⟩⟩
    · have := List.getElem?_eq_none_iff.1 hm
      exact ⟨by omega, absurd hl, fun _ => .inr (by omega)⟩
  · obtain ⟨m, hm, hp, rfl⟩ := advance_next_eq_ok_iff.1 h
    obtain ⟨hi, hlt⟩ := hmin hm
    rw [hi] at hm
    rw [String.toList_ofList] at hp
    exact ⟨by omega, fun _ => ⟨m, hm, hp⟩, fun hn => absurd hn hl⟩

end Directive

theorem scan_expecting_self (lines : List (List Char)) :
    scan lines 0 (lines.map .expecting) = .ok lines.length := by
  -- After the lines in `pre`, the scan stands before the first of `ls`.
  have hrest (pre ls : List (List Char)) (h : lines = pre ++ ls) :
      scan lines pre.length (ls.map .expecting) = .ok lines.length := by
    induction ls generalizing pre with
    | nil => rw [h, List.append_nil]; rfl
    | cons l ls ih =>
      have hl : lines[pre.length]? = some l := by simp [h]
      have hnext := ih (pre ++ [l]) (by simp [h])
      rw [List.map_cons, scan_cons, Directive.advance_expecting_self hl]
      rwa [List.length_append] at hnext
  exact hrest [] lines rfl

/-- All steps of a scan. -/
theorem scan_expecting {lines ls : List (List Char)} {i j : Nat}
    (h : scan lines (min i lines.length) (ls.map .expecting) = .ok j) :
    ∀ k l, ls[k]? = some l → Directive.Meets lines (i + k) l := by
  induction ls generalizing i with
  | nil => intro k l hl; exact nomatch hl
  | cons m ls ih =>
    rw [List.map_cons, scan_cons] at h
    cases ha : (Directive.expecting m).advance lines (min i lines.length) with
    | error e => rw [ha] at h; exact nomatch h
    | ok j' =>
      obtain ⟨rfl, hm⟩ := Directive.advance_expecting ha
      rw [ha] at h
      intro k l hl
      cases k with
      | zero =>
        cases hl
        exact hm
      | succ k =>
        rw [Nat.add_comm k 1, ← Nat.add_assoc]
        exact ih h k l hl

/-- **Transcripts are sound and complete.** The transcript of an output is one directive for each of
its lines. The output meets it, and an output that meets it has those lines, up to what stands around
them and up to blank lines at its end. -/
theorem validate_transcript (output : String) :
    (CheckFile.parse (transcript output)).directives =
      (Text.lines output.toList).map .expecting ∧
    (CheckFile.parse (transcript output)).body = "" ∧
    (validate output (CheckFile.parse (transcript output)).directives).result = .ok () ∧
    ∀ other, (validate other (CheckFile.parse (transcript output)).directives).result = .ok () →
      ∀ i l, (Text.lines output.toList)[i]? = some l →
        (Text.trim l ≠ [] →
          ∃ m, (Text.lines other.toList)[i]? = some m ∧ Text.trim l <:+: m) ∧
        (Text.trim l = [] →
          (∃ m, (Text.lines other.toList)[i]? = some m ∧ Text.trim m = []) ∨
            (Text.lines other.toList).length ≤ i) := by
  rw [parse_transcript]
  refine ⟨rfl, rfl, validate_eq_ok_iff.2 ⟨_, scan_expecting_self _⟩, fun other h i l hl => ?_⟩
  obtain ⟨j, hj⟩ := validate_eq_ok_iff.1 h
  rw [← Nat.zero_min (Text.lines other.toList).length] at hj
  have hmeets := scan_expecting hj i l hl
  rwa [Nat.zero_add] at hmeets

end AttAsm.Check

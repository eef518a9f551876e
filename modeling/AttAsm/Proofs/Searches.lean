import AttAsm.Proofs.ScanSteps
import Mathlib.Data.List.Forall2
import Mathlib.Data.List.NodupEquivFin

/-!
# Searches

A search asks for some line behind the last match. A list of searches and remarks can be met when
lines can be chosen for its patterns, in order. The scan does not look for the choice that works, it
takes the first line every time; this loses nothing, since that line comes no later than the chosen
one and leaves all lines ahead that are chosen for the rest (`Choice.exists_scan`).

What can be chosen from does not shrink when patterns are left out or lines are added
(`Choice.sublist`, `Choice.of_sublist_lines`).

Main statement: `validate_eq_ok_iff_exists_choice`.
-/

namespace AttAsm.Check

/-- The directive is a search or a remark: it does not ask for the next line. -/
def Directive.isSearch : Directive → Bool
  | check _ => true
  | label _ => true
  | next _ => false
  | empty => false
  | comment _ => true

/-- The patterns that are searched for. -/
def patterns (ds : List Directive) : List String := ds.filterMap Directive.searched?

/-- Lines for patterns: in order, each with its pattern. -/
structure Choice (lines : List (List Char)) (ps : List String) (choice : List Nat) : Prop where
  increasing : choice.Pairwise (· < ·)
  hasPattern : List.Forall₂ (fun p i => HasPattern lines i p) ps choice

variable {lines : List (List Char)} {ds : List Directive} {ps : List String} {choice : List Nat}

theorem patterns_cons_of_some {d : Directive} {p : String} (h : d.searched? = some p) :
    patterns (d :: ds) = p :: patterns ds :=
  List.filterMap_cons_some h

theorem patterns_cons_of_none {d : Directive} (h : d.searched? = none) :
    patterns (d :: ds) = patterns ds :=
  List.filterMap_cons_none h

namespace Directive

variable {d : Directive} {i j : Nat}

theorem advance_of_remark (hd : d.isSearch = true) (hp : d.searched? = none) :
    d.advance lines i = .ok i := by
  cases d with
  | check | label => exact nomatch hp
  | next | empty => exact nomatch hd
  | comment t => rfl

theorem le_of_advance (h : d.advance lines i = .ok j) : i ≤ j := by
  obtain ⟨o, ho, rfl⟩ := advance_eq_ok_iff.1 h
  cases o with
  | none => exact Nat.le_refl i
  | some k => exact Nat.le_succ_of_le ho.le_and_lt.1

end Directive

/-! ## Choices and scans -/

namespace Choice

/-- A choice from the lines ahead is enough for the scan. -/
theorem exists_scan (hds : ∀ d ∈ ds, d.isSearch = true) (h : Choice lines (patterns ds) choice)
    {i : Nat} (hi : ∀ k ∈ choice, i ≤ k) : ∃ j, scan lines i ds = .ok j := by
  induction ds generalizing choice i with
  | nil => exact ⟨i, rfl⟩
  | cons d ds ih =>
    obtain ⟨hd, hds⟩ := List.forall_mem_cons.1 hds
    cases hp : d.searched? with
    | none =>
      rw [patterns_cons_of_none hp] at h
      obtain ⟨j, hj⟩ := ih hds h hi
      exact ⟨j, scan_cons_eq_ok_iff.2 ⟨i, Directive.advance_of_remark hd hp, hj⟩⟩
    | some p =>
      rw [patterns_cons_of_some hp] at h
      obtain ⟨hincreasing, hmatch⟩ := h
      cases hmatch with
      | @cons _ k _ ks hk hks =>
        obtain ⟨hlt, hincreasing⟩ := List.pairwise_cons.1 hincreasing
        -- The scan stops at line `k` or before, and the lines of the rest lie behind `k`.
        obtain ⟨m, hm, hmk⟩ := exists_findFrom_of_hasPattern (hi k List.mem_cons_self) hk
        have hahead : ∀ n ∈ ks, m + 1 ≤ n := by
          intro n hn
          exact Nat.lt_of_le_of_lt hmk (hlt n hn)
        obtain ⟨j, hj⟩ := ih hds ⟨hincreasing, hks⟩ hahead
        have hadvance := (Directive.advance_search_eq_ok_iff hp).2 ⟨m, hm, rfl⟩
        exact ⟨j, scan_cons_eq_ok_iff.2 ⟨m + 1, hadvance, hj⟩⟩

/-- The lines at which a scan stops are a choice. -/
theorem exists_of_scan {i j : Nat} (h : scan lines i ds = .ok j) :
    ∃ choice, Choice lines (patterns ds) choice ∧ ∀ k ∈ choice, i ≤ k := by
  induction ds generalizing i with
  | nil => exact ⟨[], ⟨.nil, .nil⟩, List.forall_mem_nil _⟩
  | cons d ds ih =>
    obtain ⟨m, hm, hrest⟩ := scan_cons_eq_ok_iff.1 h
    obtain ⟨ks, ⟨hincreasing, hks⟩, hahead⟩ := ih hrest
    have him := Directive.le_of_advance hm
    cases hp : d.searched? with
    | none =>
      rw [patterns_cons_of_none hp]
      exact ⟨ks, ⟨hincreasing, hks⟩, fun k hk => him.trans (hahead k hk)⟩
    | some p =>
      obtain ⟨k, hk, rfl⟩ := (Directive.advance_search_eq_ok_iff hp).1 hm
      obtain ⟨hik, hpk, -⟩ := findFrom_eq_some_iff.1 hk
      rw [patterns_cons_of_some hp]
      refine ⟨k :: ks, ⟨List.pairwise_cons.2 ⟨hahead, hincreasing⟩, .cons hpk hks⟩, ?_⟩
      exact List.forall_mem_cons.2 ⟨hik, fun n hn => him.trans (hahead n hn)⟩

/-! ## Fewer patterns, more lines -/

/-- Patterns can be left out. -/
theorem sublist (h : Choice lines ps choice) {qs : List String} (hqs : qs.Sublist ps) :
    ∃ choice, Choice lines qs choice := by
  -- The lines of the patterns that stay are kept, so their order is.
  have hkeep : ∃ ks, ks.Sublist choice ∧ List.Forall₂ (fun p i => HasPattern lines i p) qs ks := by
    obtain ⟨-, hmatch⟩ := h
    induction hqs generalizing choice with
    | slnil => exact ⟨[], List.nil_sublist _, .nil⟩
    | cons p _ ih =>
      cases hmatch with
      | cons _ hmatch =>
        obtain ⟨ks, hks, hmatch⟩ := ih hmatch
        exact ⟨ks, hks.cons _, hmatch⟩
    | cons_cons p _ ih =>
      cases hmatch with
      | cons hp hmatch =>
        obtain ⟨ks, hks, hmatch⟩ := ih hmatch
        exact ⟨_ :: ks, hks.cons_cons _, .cons hp hmatch⟩
  obtain ⟨ks, hks, hmatch⟩ := hkeep
  exact ⟨ks, h.increasing.sublist hks, hmatch⟩

/-- Lines can be added: the chosen lines move on and keep their order. -/
theorem of_sublist_lines (h : Choice lines ps choice) {others : List (List Char)}
    (hlines : lines.Sublist others) : ∃ choice, Choice others ps choice := by
  obtain ⟨f, hf⟩ := List.sublist_iff_exists_orderEmbedding_getElem?_eq.1 hlines
  refine ⟨choice.map f, ?_, ?_⟩
  · rw [List.pairwise_map]
    exact h.increasing.imp f.lt_iff_lt.2
  · rw [List.forall₂_map_right_iff]
    refine h.hasPattern.imp ?_
    rintro p i ⟨l, hl, hp⟩
    exact ⟨l, (hf i).symm.trans hl, hp⟩

end Choice

theorem validate_of_choice {output : String} (hds : ∀ d ∈ ds, d.isSearch = true)
    (h : ∃ choice, Choice (Text.lines output.toList) (patterns ds) choice) :
    (validate output ds).result = .ok () := by
  obtain ⟨choice, h⟩ := h
  exact validate_eq_ok_iff.2 (h.exists_scan hds fun k _ => Nat.zero_le k)

theorem exists_choice_of_validate {output : String} (h : (validate output ds).result = .ok ()) :
    ∃ choice, Choice (Text.lines output.toList) (patterns ds) choice := by
  obtain ⟨j, hj⟩ := validate_eq_ok_iff.1 h
  obtain ⟨choice, hchoice, -⟩ := Choice.exists_of_scan hj
  exact ⟨choice, hchoice⟩

/-- **The scan never rejects searches that can be met.** A list of searches and remarks passes
exactly when lines can be chosen for its patterns, in order. Therefore it still passes when some of
its directives are left out or when lines are added anywhere in the output. -/
theorem validate_eq_ok_iff_exists_choice (output : String) (ds : List Directive)
    (hds : ∀ d ∈ ds, d.isSearch = true) :
    ((validate output ds).result = .ok () ↔
      ∃ choice, Choice (Text.lines output.toList) (patterns ds) choice) ∧
    ((validate output ds).result = .ok () →
      (∀ es : List Directive, es.Sublist ds → (validate output es).result = .ok ()) ∧
      ∀ other : String, (Text.lines output.toList).Sublist (Text.lines other.toList) →
        (validate other ds).result = .ok ()) := by
  refine ⟨⟨exists_choice_of_validate, validate_of_choice hds⟩, ?_⟩
  intro h
  obtain ⟨choice, hchoice⟩ := exists_choice_of_validate h
  constructor
  · intro es hes
    have hsearch : ∀ d ∈ es, d.isSearch = true := fun d hd => hds d (hes.subset hd)
    exact validate_of_choice hsearch (hchoice.sublist (hes.filterMap Directive.searched?))
  · intro other hlines
    exact validate_of_choice hds (hchoice.of_sublist_lines hlines)

/-- A first line that has both patterns, then the list without its label, then an output with lines
in front, between and at the end. -/
theorem validate_eq_ok_iff_exists_choice_overlapping :
    Choice (Text.lines "ab\nb\na".toList)
      (patterns [.label "a", .comment "then", .check "b", .check "a"]) [0, 1, 2] ∧
    (validate "ab\nb\na" [.label "a", .comment "then", .check "b", .check "a"]).result = .ok () ∧
    (validate "ab\nb\na" [.comment "then", .check "b", .check "a"]).result = .ok () ∧
    (validate "b\nab\n\nb\na\nb\n"
      [.label "a", .comment "then", .check "b", .check "a"]).result = .ok () := by
  have hchoice : Choice (Text.lines "ab\nb\na".toList)
      (patterns [.label "a", .comment "then", .check "b", .check "a"]) [0, 1, 2] := by
    refine ⟨by decide, .cons ⟨_, rfl, by decide⟩ (.cons ⟨_, rfl, by decide⟩ ?_)⟩
    exact .cons ⟨_, rfl, by decide⟩ .nil
  have h := validate_eq_ok_iff_exists_choice "ab\nb\na"
    [.label "a", .comment "then", .check "b", .check "a"] (by decide)
  have hpass := h.1.2 ⟨[0, 1, 2], hchoice⟩
  exact ⟨hchoice, hpass, (h.2 hpass).1 _ (List.sublist_cons_self _ _), (h.2 hpass).2 _ (by decide)⟩

-- Behind the first line with "a" the next one is not "b", though it is behind the second.
example : (validate "a\na\nb" [.check "a", .next "b"]).result =
    .error (.nextDiffers "b" 2 "a") := by
  rfl

end AttAsm.Check

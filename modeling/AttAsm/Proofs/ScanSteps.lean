import AttAsm.Check.Scan
import Mathlib.Tactic.SplitIfs

/-!
# Steps of a scan

What one directive does to a scan that stands before line `i`, said without the scan: `Takes` gives
the line that the directive takes, if it takes one, and the scan goes on behind it.

Main statements: a search finds the first line that has the pattern (`findFrom_eq_some_iff`), a
directive passes when it takes a line or needs none (`Directive.advance_eq_ok_iff`), and a scan
passes when its directives pass one after the other (`scan_append_eq_ok_iff`).
-/

namespace AttAsm.Check

variable {lines : List (List Char)} {i j : Nat} {p : String}

/-- Line `i` has the pattern. -/
def HasPattern (lines : List (List Char)) (i : Nat) (p : String) : Prop :=
  ∃ l, lines[i]? = some l ∧ p.toList <:+: l

/-- Line `i` is blank. -/
def BlankAt (lines : List (List Char)) (i : Nat) : Prop :=
  ∃ l, lines[i]? = some l ∧ Text.trim l = []

theorem HasPattern.lt (h : HasPattern lines i p) : i < lines.length := by
  obtain ⟨l, hl, -⟩ := h
  exact (List.getElem?_eq_some_iff.1 hl).1

theorem BlankAt.lt (h : BlankAt lines i) : i < lines.length := by
  obtain ⟨l, hl, -⟩ := h
  exact (List.getElem?_eq_some_iff.1 hl).1

/-! ## Searching -/

theorem hasPattern_add_iff {k : Nat} :
    HasPattern lines (i + k) p ↔
      ∃ h : k < (lines.drop i).length, Text.contains p.toList (lines.drop i)[k] = true := by
  unfold HasPattern
  rw [← List.getElem?_drop]
  simp only [List.getElem?_eq_some_iff, Text.contains_iff]
  constructor
  · rintro ⟨l, ⟨h, rfl⟩, hp⟩
    exact ⟨h, hp⟩
  · rintro ⟨h, hp⟩
    exact ⟨_, ⟨h, rfl⟩, hp⟩

/-- A search finds the first line that has the pattern. -/
theorem findFrom_eq_some_iff :
    findFrom lines i p = some j ↔
      i ≤ j ∧ HasPattern lines j p ∧ ∀ k, i ≤ k → k < j → ¬HasPattern lines k p := by
  unfold findFrom
  rw [Option.map_eq_some_iff]
  constructor
  · rintro ⟨n, hn, rfl⟩
    obtain ⟨h, hp, hbefore⟩ := List.findIdx?_eq_some_iff_getElem.1 hn
    refine ⟨Nat.le_add_right i n, hasPattern_add_iff.2 ⟨h, hp⟩, fun k hik hk hpk => ?_⟩
    obtain ⟨m, rfl⟩ := Nat.exists_eq_add_of_le hik
    obtain ⟨_, hm⟩ := hasPattern_add_iff.1 hpk
    exact hbefore m (by omega) hm
  · rintro ⟨hij, hp, hbefore⟩
    obtain ⟨n, rfl⟩ := Nat.exists_eq_add_of_le hij
    obtain ⟨h, hn⟩ := hasPattern_add_iff.1 hp
    refine ⟨n, List.findIdx?_eq_some_iff_getElem.2 ⟨h, hn, fun m hm hpm => ?_⟩, rfl⟩
    exact hbefore (i + m) (by omega) (by omega) (hasPattern_add_iff.2 ⟨by omega, hpm⟩)

/-- A search stops at the latest at a line that has the pattern. -/
theorem exists_findFrom_of_hasPattern (hij : i ≤ j) (h : HasPattern lines j p) :
    ∃ k, findFrom lines i p = some k ∧ k ≤ j := by
  cases hf : findFrom lines i p with
  | none =>
    obtain ⟨n, rfl⟩ := Nat.exists_eq_add_of_le hij
    obtain ⟨hn, hc⟩ := hasPattern_add_iff.1 h
    have hnone := List.findIdx?_eq_none_iff.1 (Option.map_eq_none_iff.1 hf) _ (List.getElem_mem hn)
    rw [hc] at hnone
    exact nomatch hnone
  | some k =>
    obtain ⟨-, -, hbefore⟩ := findFrom_eq_some_iff.1 hf
    exact ⟨k, rfl, Nat.le_of_not_lt fun hlt => hbefore j hij hlt h⟩

/-! ## One directive -/

namespace Directive

/-- The pattern that the directive looks for on the lines to come. -/
def searched? : Directive → Option String
  | check p => some p
  | label p => some p
  | _ => none

/-- The line that a directive takes when the scan stands before line `i`. Remarks take none, and at
the end of the output nothing has to be blank. -/
inductive Takes (lines : List (List Char)) (i : Nat) : Directive → Option Nat → Prop
  | search {d : Directive} {p : String} {k : Nat} (hd : d.searched? = some p) (hi : i ≤ k)
      (hp : HasPattern lines k p) (hfirst : ∀ j, i ≤ j → j < k → ¬HasPattern lines j p) :
      Takes lines i d (some k)
  | next {p : String} (hp : HasPattern lines i p) : Takes lines i (next p) (some i)
  | blank (h : BlankAt lines i) : Takes lines i empty (some i)
  | atEnd (h : lines.length ≤ i) : Takes lines i empty none
  | comment (t : String) : Takes lines i (comment t) none

variable {d : Directive}

/-- A line that is taken lies ahead. -/
theorem Takes.le_and_lt {k : Nat} (h : d.Takes lines i (some k)) : i ≤ k ∧ k < lines.length := by
  cases h with
  | search _ hi hp _ => exact ⟨hi, hp.lt⟩
  | next hp => exact ⟨Nat.le_refl i, hp.lt⟩
  | blank h => exact ⟨Nat.le_refl i, h.lt⟩

/-- The two searches differ in their failure only. -/
theorem exists_advance_eq_of_searched (hd : d.searched? = some p) :
    ∃ e, d.advance lines i =
      match findFrom lines i p with
      | some k => .ok (k + 1)
      | none => .error e := by
  cases d with
  | check q =>
    cases hd
    exact ⟨.patternNotFound p, rfl⟩
  | label q =>
    cases hd
    exact ⟨.labelNotFound p, rfl⟩
  | next | empty | comment => exact nomatch hd

theorem advance_search_eq_ok_iff (hd : d.searched? = some p) :
    d.advance lines i = .ok j ↔ ∃ k, findFrom lines i p = some k ∧ j = k + 1 := by
  obtain ⟨e, he⟩ := exists_advance_eq_of_searched hd
  rw [he]
  cases findFrom lines i p with
  | none => exact iff_of_false nofun nofun
  | some k =>
    constructor
    · intro h
      cases h
      exact ⟨k, rfl, rfl⟩
    · rintro ⟨m, hm, rfl⟩
      cases hm
      rfl

theorem advance_next_eq_ok_iff :
    (next p).advance lines i = .ok j ↔
      ∃ m, lines[i]? = some m ∧ p.toList <:+: m ∧ j = i + 1 := by
  unfold advance
  cases lines[i]? with
  | none => exact iff_of_false nofun nofun
  | some m =>
    simp only [Option.some.injEq, exists_eq_left', ← Text.contains_iff]
    split_ifs with hm
    · rw [Except.ok.injEq, eq_comm, and_iff_right hm]
    · exact iff_of_false nofun fun h => hm h.1

theorem advance_empty_eq_ok_iff :
    empty.advance lines i = .ok j ↔
      (∃ m, lines[i]? = some m ∧ Text.trim m = [] ∧ j = i + 1) ∨ lines[i]? = none ∧ j = i := by
  unfold advance
  cases lines[i]? with
  | none =>
    rw [Except.ok.injEq, eq_comm]
    exact ⟨fun h => .inr ⟨rfl, h⟩, fun h => (h.resolve_left nofun).2⟩
  | some m =>
    simp only [Option.some.injEq, exists_eq_left', List.isEmpty_iff, reduceCtorEq, false_and,
      or_false]
    split_ifs with hm
    · rw [Except.ok.injEq, eq_comm, and_iff_right hm]
    · exact iff_of_false nofun fun h => hm h.1

/-- A directive passes when it takes a line or needs none, and the scan then stands behind that
line or where it stood. -/
theorem advance_eq_ok_iff :
    d.advance lines i = .ok j ↔ ∃ o, d.Takes lines i o ∧ j = o.elim i (· + 1) := by
  constructor
  · intro h
    cases hd : d.searched? with
    | some p =>
      obtain ⟨k, hk, rfl⟩ := (advance_search_eq_ok_iff hd).1 h
      obtain ⟨hi, hp, hfirst⟩ := findFrom_eq_some_iff.1 hk
      exact ⟨some k, .search hd hi hp hfirst, rfl⟩
    | none =>
      cases d with
      | check | label => exact nomatch hd
      | next p =>
        obtain ⟨m, hm, hp, rfl⟩ := advance_next_eq_ok_iff.1 h
        exact ⟨some i, .next ⟨m, hm, hp⟩, rfl⟩
      | empty =>
        rcases advance_empty_eq_ok_iff.1 h with ⟨m, hm, hb, rfl⟩ | ⟨hm, rfl⟩
        · exact ⟨some i, .blank ⟨m, hm, hb⟩, rfl⟩
        · exact ⟨none, .atEnd (List.getElem?_eq_none_iff.1 hm), rfl⟩
      | comment t =>
        cases h
        exact ⟨none, .comment t, rfl⟩
  · rintro ⟨o, h, rfl⟩
    cases h with
    | search hd hi hp hfirst =>
      exact (advance_search_eq_ok_iff hd).2 ⟨_, findFrom_eq_some_iff.2 ⟨hi, hp, hfirst⟩, rfl⟩
    | next hp =>
      obtain ⟨m, hm, hp⟩ := hp
      exact advance_next_eq_ok_iff.2 ⟨m, hm, hp, rfl⟩
    | blank h =>
      obtain ⟨m, hm, hb⟩ := h
      exact advance_empty_eq_ok_iff.2 (.inl ⟨m, hm, hb, rfl⟩)
    | atEnd h => exact advance_empty_eq_ok_iff.2 (.inr ⟨List.getElem?_eq_none_iff.2 h, rfl⟩)
    | comment t => rfl

end Directive

/-! ## Scans -/

variable {ds : List Directive}

theorem scan_cons_eq_ok_iff {d : Directive} :
    scan lines i (d :: ds) = .ok j ↔ ∃ k, d.advance lines i = .ok k ∧ scan lines k ds = .ok j :=
  except_bind_eq_ok_iff

theorem scan_append_eq_ok_iff {es : List Directive} :
    scan lines i (ds ++ es) = .ok j ↔ ∃ k, scan lines i ds = .ok k ∧ scan lines k es = .ok j := by
  rw [scan_append]
  exact except_bind_eq_ok_iff

theorem validate_eq_ok_iff {output : String} :
    (validate output ds).result = .ok () ↔ ∃ j, scan (Text.lines output.toList) 0 ds = .ok j := by
  show (scan (Text.lines output.toList) 0 ds).map _ = _ ↔ _
  cases scan (Text.lines output.toList) 0 ds with
  | error e => exact iff_of_false nofun nofun
  | ok j => exact iff_of_true rfl ⟨j, rfl⟩

end AttAsm.Check

import AttAsm.Proofs.ScanSteps
import Mathlib.Data.List.Induction
import Mathlib.Data.List.ReduceOption
import Mathlib.Order.Monotone.Basic

/-!
# The lines that a scan takes

An assignment gives each directive the line that it takes, or none. The scan always stands behind
the last line that was taken, so the whole run can be read off the assignment: an output passes
exactly when each directive takes its entry there (`scan_eq_ok_iff_exists_fits`).

The place of the scan never moves back (`Fits.monotone_lineAfter`). Hence the lines are taken in
order, and once the end of the output is reached no line is taken any more.

Main statement: `validate_eq_ok_iff_exists_assignment`.
-/

namespace AttAsm.Check

/-- The last line that was taken, from the entries of the directives so far. -/
def lastTaken (places : List (Option Nat)) : Option Nat := places.reduceOption.getLast?

/-- The line behind the last one that was taken, or the first line of the output. -/
def lineAfter (places : List (Option Nat)) : Nat := (lastTaken places).elim 0 (· + 1)

theorem lineAfter_concat (places : List (Option Nat)) (o : Option Nat) :
    lineAfter (places ++ [o]) = o.elim (lineAfter places) (· + 1) := by
  unfold lineAfter lastTaken
  rw [List.reduceOption_append]
  cases o with
  | none => simp
  | some k => simp

/-- Each directive takes its entry behind the lines that were taken before it. -/
structure Fits (lines : List (List Char)) (ds : List Directive) (places : List (Option Nat)) :
    Prop where
  length_eq : places.length = ds.length
  takes : ∀ (k : Nat) (d : Directive) (o : Option Nat), ds[k]? = some d → places[k]? = some o →
    d.Takes lines (lineAfter (places.take k)) o

/-- An assignment of lines to directives: the lines are taken in order, and a directive for an empty
line goes without one only behind the last line of the output, where nothing more is taken. -/
structure Assignment (lines : List (List Char)) (ds : List Directive)
    (places : List (Option Nat)) : Prop extends Fits lines ds places where
  increasing : ∀ k m i j : Nat, k < m → places[k]? = some (some i) →
    places[m]? = some (some j) → i < j
  atEnd : ∀ k : Nat, ds[k]? = some .empty → places[k]? = some none →
    (lines = [] ∨ ∃ i, lastTaken (places.take k) = some i ∧ i + 1 = lines.length) ∧
      ∀ (m : Nat) (o : Option Nat), k < m → places[m]? = some o → o = none

variable {lines : List (List Char)} {ds : List Directive} {places : List (Option Nat)}

/-! ## Scans and their entries -/

theorem fits_concat_iff {d : Directive} {o : Option Nat} :
    Fits lines (ds ++ [d]) (places ++ [o]) ↔
      Fits lines ds places ∧ d.Takes lines (lineAfter places) o := by
  have htake {k : Nat} (hk : k ≤ places.length) : (places ++ [o]).take k = places.take k :=
    List.take_append_of_le_length hk
  constructor
  · rintro ⟨hlen, h⟩
    have hlen : places.length = ds.length := by simpa using hlen
    refine ⟨⟨hlen, ?_⟩, ?_⟩
    · intro k e q he hq
      have hk : k < ds.length := (List.getElem?_eq_some_iff.1 he).1
      rw [← htake (by omega)]
      rw [← List.getElem?_append_left hk] at he
      rw [← List.getElem?_append_left (by omega)] at hq
      exact h k e q he hq
    · have hlast := h ds.length d o (by simp) (by simp [← hlen])
      rwa [← hlen, List.take_left] at hlast
  · rintro ⟨⟨hlen, h⟩, hd⟩
    refine ⟨by simp [hlen], ?_⟩
    intro k e q he hq
    rcases Nat.lt_trichotomy k ds.length with hk | rfl | hk
    · rw [List.getElem?_append_left hk] at he
      rw [List.getElem?_append_left (by omega)] at hq
      rw [htake (by omega)]
      exact h k e q he hq
    · rw [List.getElem?_concat_length] at he
      rw [← hlen, List.getElem?_concat_length] at hq
      cases he
      cases hq
      rwa [← hlen, List.take_left]
    · have hlt := (List.getElem?_eq_some_iff.1 he).1
      rw [List.length_append, List.length_singleton] at hlt
      omega

theorem scan_concat_eq_ok_iff {d : Directive} {j : Nat} :
    scan lines 0 (ds ++ [d]) = .ok j ↔
      ∃ i, scan lines 0 ds = .ok i ∧ d.advance lines i = .ok j := by
  have hone (i : Nat) : scan lines i [d] = d.advance lines i := by
    rw [scan_cons]
    cases d.advance lines i <;> rfl
  rw [scan_append_eq_ok_iff]
  simp only [hone]

/-- A scan that passes stands behind the last line of an assignment that fits. -/
theorem scan_eq_ok_iff_exists_fits {j : Nat} :
    scan lines 0 ds = .ok j ↔ ∃ places, Fits lines ds places ∧ j = lineAfter places := by
  induction ds using List.reverseRecOn generalizing j with
  | nil =>
    constructor
    · intro h
      cases h
      exact ⟨[], ⟨rfl, nofun⟩, rfl⟩
    · rintro ⟨places, ⟨hlen, -⟩, rfl⟩
      rw [List.length_eq_zero_iff.1 hlen]
      rfl
  | append_singleton ds d ih =>
    rw [scan_concat_eq_ok_iff]
    constructor
    · rintro ⟨i, hi, hd⟩
      obtain ⟨places, hfits, rfl⟩ := ih.1 hi
      obtain ⟨o, ho, rfl⟩ := Directive.advance_eq_ok_iff.1 hd
      exact ⟨places ++ [o], fits_concat_iff.2 ⟨hfits, ho⟩, (lineAfter_concat places o).symm⟩
    · rintro ⟨places, hfits, rfl⟩
      rcases List.eq_nil_or_concat places with rfl | ⟨places, o, rfl⟩
      · have hlen := hfits.length_eq
        simp at hlen
      · rw [List.concat_eq_append] at hfits ⊢
        obtain ⟨hfits, ho⟩ := fits_concat_iff.1 hfits
        refine ⟨lineAfter places, ih.2 ⟨places, hfits, rfl⟩, ?_⟩
        exact Directive.advance_eq_ok_iff.2 ⟨o, ho, lineAfter_concat places o⟩

/-! ## The order of the lines -/

namespace Fits

theorem exists_takes (h : Fits lines ds places) {k : Nat} {o : Option Nat}
    (ho : places[k]? = some o) : ∃ d : Directive, d.Takes lines (lineAfter (places.take k)) o := by
  have hk : k < ds.length := by
    have := (List.getElem?_eq_some_iff.1 ho).1
    have := h.length_eq
    omega
  exact ⟨ds[k], h.takes k ds[k] o (List.getElem?_eq_getElem hk) ho⟩

theorem lineAfter_le_and_lt (h : Fits lines ds places) {k i : Nat}
    (hi : places[k]? = some (some i)) : lineAfter (places.take k) ≤ i ∧ i < lines.length := by
  obtain ⟨d, hd⟩ := h.exists_takes hi
  exact hd.le_and_lt

theorem lineAfter_take_succ {k : Nat} {o : Option Nat} (ho : places[k]? = some o) :
    lineAfter (places.take (k + 1)) = o.elim (lineAfter (places.take k)) (· + 1) := by
  rw [List.take_add_one, ho]
  exact lineAfter_concat (places.take k) o

/-- The scan never moves back. -/
theorem monotone_lineAfter (h : Fits lines ds places) :
    Monotone fun k => lineAfter (places.take k) := by
  apply monotone_nat_of_le_succ
  intro k
  cases ho : places[k]? with
  | none =>
    rw [List.take_add_one, ho, Option.toList_none, List.append_nil]
  | some o =>
    rw [lineAfter_take_succ ho]
    cases o with
    | none => exact Nat.le_refl _
    | some i => exact Nat.le_succ_of_le (h.lineAfter_le_and_lt ho).1

/-- Lines are taken in order. -/
theorem lt_of_lt (h : Fits lines ds places) {k m i j : Nat} (hkm : k < m)
    (hi : places[k]? = some (some i)) (hj : places[m]? = some (some j)) : i < j := by
  have hstep : lineAfter (places.take (k + 1)) = i + 1 := lineAfter_take_succ hi
  have hmono : lineAfter (places.take (k + 1)) ≤ lineAfter (places.take m) :=
    h.monotone_lineAfter hkm
  have hm := (h.lineAfter_le_and_lt hj).1
  omega

/-- Behind the last line nothing is taken. -/
theorem eq_none_of_le (h : Fits lines ds places) {k m : Nat} {o : Option Nat} (hkm : k < m)
    (hend : lines.length ≤ lineAfter (places.take k)) (ho : places[m]? = some o) : o = none := by
  cases o with
  | none => rfl
  | some i =>
    have hmono : lineAfter (places.take k) ≤ lineAfter (places.take m) :=
      h.monotone_lineAfter hkm.le
    have hi := h.lineAfter_le_and_lt ho
    omega

theorem lastTaken_lt (h : Fits lines ds places) {k i : Nat}
    (hi : lastTaken (places.take k) = some i) : i < lines.length := by
  have hmem : some i ∈ places :=
    List.mem_of_mem_take (List.reduceOption_mem_iff.1 (List.mem_of_getLast? hi))
  obtain ⟨m, hm⟩ := List.mem_iff_getElem?.1 hmem
  exact (h.lineAfter_le_and_lt hm).2

/-- The scan stands behind all lines when the last line was taken, or when there is none. -/
theorem last_of_le (h : Fits lines ds places) {k : Nat}
    (hend : lines.length ≤ lineAfter (places.take k)) :
    lines = [] ∨ ∃ i, lastTaken (places.take k) = some i ∧ i + 1 = lines.length := by
  cases hlast : lastTaken (places.take k) with
  | none =>
    rw [lineAfter, hlast] at hend
    exact .inl (List.length_eq_zero_iff.1 (Nat.le_zero.1 hend))
  | some i =>
    rw [lineAfter, hlast] at hend
    have hlt := h.lastTaken_lt hlast
    exact .inr ⟨i, rfl, Nat.le_antisymm hlt hend⟩

theorem assignment (h : Fits lines ds places) : Assignment lines ds places where
  toFits := h
  increasing k m i j hkm hi hj := h.lt_of_lt hkm hi hj
  atEnd k hd ho := by
    have hend : lines.length ≤ lineAfter (places.take k) := by
      cases h.takes k _ _ hd ho with
      | atEnd hend => exact hend
    exact ⟨h.last_of_le hend, fun m o hkm hm => h.eq_none_of_le hkm hend hm⟩

end Fits

/-- **A validation that passes has a witness.** An output meets directives exactly when lines can be
assigned to them: in order, each search to the first line that has its pattern, and each of the
others to the line behind the one that was taken last. -/
theorem validate_eq_ok_iff_exists_assignment (output : String) (ds : List Directive) :
    (validate output ds).result = .ok () ↔
      ∃ places, Assignment (Text.lines output.toList) ds places := by
  rw [validate_eq_ok_iff]
  simp only [scan_eq_ok_iff_exists_fits]
  constructor
  · rintro ⟨j, places, hfits, -⟩
    exact ⟨places, hfits.assignment⟩
  · rintro ⟨places, h⟩
    exact ⟨lineAfter places, places, h.toFits, rfl⟩

end AttAsm.Check

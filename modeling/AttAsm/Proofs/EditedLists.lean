import AttAsm.Proofs.ScanSteps
import Mathlib.Data.List.Forall2

/-!
# Edited lists of directives

How the verdict on an output depends on the list of directives. A scan hands on nothing but its
place. Therefore it can be cut anywhere, and what fails is a first directive that the others in
front of it lead to (`exists_of_scan_eq_error`). Remarks leave the place as it is
(`validate_filter`), and a directive may be replaced by any other that moves the scan in the same
way (`scan_eq_ok_of_forall₂`).

Main statement: `validate_edited`.
-/

namespace AttAsm.Check

variable {lines : List (List Char)} {i j : Nat} {ds es : List Directive} {f : Failure}

/-! ## The first failure -/

theorem scan_append_of_error (h : scan lines i ds = .error f) (es : List Directive) :
    scan lines i (ds ++ es) = .error f := by
  rw [scan_append, h]
  rfl

theorem scanRecords_append_of_error (h : scan lines i ds = .error f) (es : List Directive) :
    scanRecords lines i (ds ++ es) = scanRecords lines i ds := by
  induction ds generalizing i with
  | nil => exact nomatch h
  | cons d ds ih =>
    rw [List.cons_append, scanRecords, scanRecords]
    rw [scan_cons] at h
    cases hd : d.advance lines i with
    | error g => rfl
    | ok k =>
      rw [hd] at h
      exact congrArg ((d.record? k).toList ++ ·) (ih h)

/-- A scan that fails has a first directive that fails, at the place to which the others lead. -/
theorem exists_of_scan_eq_error (h : scan lines i ds = .error f) :
    ∃ before d after k, ds = before ++ d :: after ∧ scan lines i before = .ok k ∧
      d.advance lines k = .error f := by
  induction ds generalizing i with
  | nil => exact nomatch h
  | cons d ds ih =>
    rw [scan_cons] at h
    cases hd : d.advance lines i with
    | error g =>
      rw [hd] at h
      cases h
      exact ⟨[], d, ds, i, rfl, rfl, hd⟩
    | ok k =>
      rw [hd] at h
      obtain ⟨before, e, after, m, rfl, hbefore, he⟩ := ih h
      exact ⟨d :: before, e, after, m, rfl, scan_cons_eq_ok_iff.2 ⟨k, hd, hbefore⟩, he⟩

theorem validate_eq_error_iff {output : String} :
    (validate output ds).result = .error f ↔ scan (Text.lines output.toList) 0 ds = .error f := by
  show (scan (Text.lines output.toList) 0 ds).map _ = _ ↔ _
  cases scan (Text.lines output.toList) 0 ds with
  | error g => exact ⟨fun h => by cases h; rfl, fun h => by cases h; rfl⟩
  | ok k => exact iff_of_false nofun nofun

/-- After a failure nothing is looked at. -/
theorem validate_append_of_error {output : String} (h : (validate output ds).result = .error f)
    (es : List Directive) : validate output (ds ++ es) = validate output ds := by
  have hscan := validate_eq_error_iff.1 h
  simp only [validate, scanRecords_append_of_error hscan, scan_append_of_error hscan, hscan]

/-- Behind a list that passes, a failure comes from a directive that follows it. -/
theorem validate_append_of_ok {output : String} (h : (validate output ds).result = .ok ())
    (es : List Directive) :
    (validate output (ds ++ es)).result = .ok () ∨
      ∃ f before d after k, (validate output (ds ++ es)).result = .error f ∧
        es = before ++ d :: after ∧
        scan (Text.lines output.toList) 0 (ds ++ before) = .ok k ∧
        d.advance (Text.lines output.toList) k = .error f := by
  obtain ⟨i, hi⟩ := validate_eq_ok_iff.1 h
  cases hscan : scan (Text.lines output.toList) 0 (ds ++ es) with
  | ok j => exact .inl (validate_eq_ok_iff.2 ⟨j, hscan⟩)
  | error f =>
    have hes : scan (Text.lines output.toList) i es = .error f := by
      rw [scan_append, hi] at hscan
      exact hscan
    obtain ⟨before, d, after, k, hsplit, hbefore, hd⟩ := exists_of_scan_eq_error hes
    refine .inr ⟨f, before, d, after, k, validate_eq_error_iff.2 hscan, hsplit, ?_, hd⟩
    exact scan_append_eq_ok_iff.2 ⟨i, hi, hbefore⟩

/-! ## Remarks -/

namespace Directive

def isComment : Directive → Bool
  | comment _ => true
  | _ => false

theorem exists_of_isComment {d : Directive} (h : d.isComment = true) : ∃ t, d = comment t := by
  cases d with
  | comment t => exact ⟨t, rfl⟩
  | check | label | next | empty => exact nomatch h

end Directive

theorem scan_filter (lines : List (List Char)) (i : Nat) (ds : List Directive) :
    scan lines i (ds.filter fun d => !d.isComment) = scan lines i ds ∧
      scanRecords lines i (ds.filter fun d => !d.isComment) = scanRecords lines i ds := by
  induction ds generalizing i with
  | nil => exact ⟨rfl, rfl⟩
  | cons d ds ih =>
    by_cases hd : d.isComment = true
    · obtain ⟨t, rfl⟩ := Directive.exists_of_isComment hd
      exact ih i
    · rw [List.filter_cons_of_pos (by simpa using hd)]
      simp only [scan_cons, scanRecords, ih, and_self]

/-- Remarks do not count. -/
theorem validate_filter (output : String) (ds : List Directive) :
    validate output (ds.filter fun d => !d.isComment) = validate output ds := by
  simp only [validate, scan_filter]

/-! ## Directives replaced by others -/

/-- A directive may be replaced by one that moves the scan in the same way where it passes. -/
theorem scan_eq_ok_of_forall₂ {R : Directive → Directive → Prop}
    (hR : ∀ d e i j, R d e → d.advance lines i = .ok j → e.advance lines i = .ok j)
    (h : List.Forall₂ R ds es) (hds : scan lines i ds = .ok j) : scan lines i es = .ok j := by
  induction h generalizing i with
  | nil => exact hds
  | cons hde _ ih =>
    obtain ⟨k, hk, hrest⟩ := scan_cons_eq_ok_iff.1 hds
    exact scan_cons_eq_ok_iff.2 ⟨k, hR _ _ i k hde hk, ih hrest⟩

theorem validate_of_forall₂ {output : String} {R : Directive → Directive → Prop}
    (hR : ∀ lines d e i j, R d e → d.advance lines i = .ok j → e.advance lines i = .ok j)
    (h : List.Forall₂ R ds es) (hds : (validate output ds).result = .ok ()) :
    (validate output es).result = .ok () := by
  obtain ⟨j, hj⟩ := validate_eq_ok_iff.1 hds
  exact validate_eq_ok_iff.2 ⟨j, scan_eq_ok_of_forall₂ (hR _) h hj⟩

namespace Directive

/-- The directive with a label taken for a plain search. -/
def unlabelled : Directive → Directive
  | label p => check p
  | d => d

theorem advance_unlabelled_eq_ok_iff {d : Directive} :
    d.unlabelled.advance lines i = .ok j ↔ d.advance lines i = .ok j := by
  cases d with
  | label p =>
    have hcheck : (check p).searched? = some p := rfl
    have hlabel : (label p).searched? = some p := rfl
    exact (advance_search_eq_ok_iff hcheck).trans (advance_search_eq_ok_iff hlabel).symm
  | check | next | empty | comment => exact Iff.rfl

/-- A pattern on the next line is the first one found. -/
theorem advance_check_of_next {p : String} (h : (next p).advance lines i = .ok j) :
    (check p).advance lines i = .ok j := by
  obtain ⟨l, hl, hp, rfl⟩ := advance_next_eq_ok_iff.1 h
  have hsearch : (check p).searched? = some p := rfl
  have hfirst : ∀ k, i ≤ k → k < i → ¬HasPattern lines k p := by
    intro k hik hki
    omega
  refine (advance_search_eq_ok_iff hsearch).2 ⟨i, ?_, rfl⟩
  exact findFrom_eq_some_iff.2 ⟨Nat.le_refl i, ⟨l, hl, hp⟩, hfirst⟩

end Directive

theorem validate_of_map_unlabelled {output : String}
    (h : ds.map Directive.unlabelled = es.map Directive.unlabelled)
    (hds : (validate output ds).result = .ok ()) : (validate output es).result = .ok () := by
  have hsame : List.Forall₂ (fun d e : Directive => d.unlabelled = e.unlabelled) ds es := by
    rw [← List.forall₂_eq_eq_eq] at h
    exact List.forall₂_map_right_iff.1 (List.forall₂_map_left_iff.1 h)
  refine validate_of_forall₂ ?_ hsame hds
  intro lines d e i j hde hd
  rw [← Directive.advance_unlabelled_eq_ok_iff, ← hde]
  exact Directive.advance_unlabelled_eq_ok_iff.2 hd

/-- **Validation stops at the first failure and follows the place of the scan.** What follows a
failure changes nothing, log included. Behind a list that passes, a failure is that of a directive
which follows it. Remarks can be put in and taken out. A label counts as a plain search, and a list
that passes still does when a plain search takes the place of a directive for the next line. -/
theorem validate_edited (output : String) :
    (∀ a b f, (validate output a).result = .error f →
      validate output (a ++ b) = validate output a) ∧
    (∀ a b, (validate output a).result = .ok () →
      (validate output (a ++ b)).result = .ok () ∨
        ∃ f before d after i, (validate output (a ++ b)).result = .error f ∧
          b = before ++ d :: after ∧
          scan (Text.lines output.toList) 0 (a ++ before) = .ok i ∧
          d.advance (Text.lines output.toList) i = .error f) ∧
    (∀ a b : List Directive,
      (a.filter fun d => !d.isComment) = (b.filter fun d => !d.isComment) →
        validate output a = validate output b) ∧
    (∀ a b : List Directive, a.map Directive.unlabelled = b.map Directive.unlabelled →
      ((validate output a).result = .ok () ↔ (validate output b).result = .ok ())) ∧
    (∀ a b : List Directive,
      List.Forall₂ (fun d e => e = d ∨ ∃ p, d = .next p ∧ e = .check p) a b →
        (validate output a).result = .ok () → (validate output b).result = .ok ()) := by
  refine ⟨fun a b f h => validate_append_of_error h b, fun a b h => validate_append_of_ok h b,
    ?_, ?_, ?_⟩
  · intro a b h
    rw [← validate_filter output a, h, validate_filter output b]
  · intro a b h
    exact ⟨validate_of_map_unlabelled h, validate_of_map_unlabelled h.symm⟩
  · intro a b h
    refine validate_of_forall₂ ?_ h
    rintro lines d e i j (rfl | ⟨p, rfl, rfl⟩) hd
    · exact hd
    · exact Directive.advance_check_of_next hd

end AttAsm.Check

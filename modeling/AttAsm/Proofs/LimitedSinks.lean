import AttAsm.Proofs.Rows
import Mathlib.Data.List.TakeDrop

/-!
# Writing to a limited sink

To a sink several offers are one offer of all their bytes (`Sink.keep_append`, `Sink.after_append`,
`Sink.accepts_append`), so a run of events is decided by the bytes that the events offer
(`Sink.run_eq`), and steps of a writer by the bytes of their items. A writer that goes on after a
failure therefore leaves a beginning of what it would have written without a limit.

Main statement: `Writer.writeAll_limited`.
-/

namespace AttAsm

namespace Sink

variable (s : Sink) (a b : List UInt8)

/-! ## Offers -/

theorem keep_append : s.keep (a ++ b) = s.keep a ++ (s.after a).keep b := by
  unfold keep after
  cases s.room with
  | none => rfl
  | some n => exact List.take_append

theorem after_append : s.after (a ++ b) = (s.after a).after b := by
  unfold after
  cases s.room with
  | none => rfl
  | some n => simp [Nat.sub_add_eq]

theorem accepts_append : s.accepts (a ++ b) = (s.accepts a && (s.after a).accepts b) := by
  unfold accepts after
  cases s.room with
  | none => rfl
  | some n =>
    rw [Bool.eq_iff_iff]
    simp only [Option.map_some, List.length_append, Bool.and_eq_true, decide_eq_true_eq]
    omega

theorem after_nil : s.after [] = s := by
  unfold after
  cases h : s.room with
  | none => rw [Option.map_none, ← h]
  | some n => rw [Option.map_some, List.length_nil, Nat.sub_zero, ← h]

theorem accepts_nil : s.accepts [] = true := by
  unfold accepts
  cases s.room with
  | none => rfl
  | some n => exact decide_eq_true (Nat.zero_le n)

theorem keep_nil : s.keep [] = [] := by
  unfold keep
  cases s.room with
  | none => rfl
  | some n => exact List.take_nil

variable {s a}

theorem keep_of_accepts (h : s.accepts a = true) : s.keep a = a := by
  unfold accepts at h
  unfold keep
  cases hr : s.room with
  | none => rfl
  | some n =>
    rw [hr, decide_eq_true_eq] at h
    exact List.take_of_length_le h

/-- After a refusal there is no room left. -/
theorem room_after_of_not_accepts (h : s.accepts a = false) : (s.after a).room = some 0 := by
  unfold accepts at h
  unfold after
  cases hr : s.room with
  | none => rw [hr] at h; exact nomatch h
  | some n =>
    rw [hr, decide_eq_false_iff_not] at h
    rw [Option.map_some, Nat.sub_eq_zero_of_le (by omega)]

theorem keep_append_of_not_accepts (h : s.accepts a = false) : s.keep (a ++ b) = s.keep a := by
  rw [keep_append]
  unfold keep
  rw [room_after_of_not_accepts h]
  exact List.append_nil _

theorem after_append_of_not_accepts (h : s.accepts a = false) : s.after (a ++ b) = s.after a := by
  have h0 := room_after_of_not_accepts h
  rw [after_append]
  generalize s.after a = u at h0 ⊢
  unfold after
  rw [h0, Option.map_some, Nat.zero_sub, ← h0]

/-! ## Runs -/

/-- A run of events is one offer of all that they offer. -/
theorem run_eq (s : Sink) (es : List Event) :
    (s.run es).sink = s.after (Event.offered es) ∧
    (s.run es).bytes = s.keep (Event.offered es) ∧
    (s.run es).error = if s.accepts (Event.offered es) then none else some s.failure := by
  induction es generalizing s with
  | nil =>
    rw [Event.offered_nil, after_nil, keep_nil, if_pos s.accepts_nil]
    exact ⟨rfl, rfl, rfl⟩
  | cons e es ih =>
    cases e with
    | note r => exact ih s
    | endLine => exact ih s
    | write bs =>
      rw [Event.offered_write]
      cases h : s.accepts bs with
      | true =>
        obtain ⟨hs, hb, he⟩ := ih (s.after bs)
        rw [run, if_pos h, after_append, keep_append, accepts_append, h, Bool.true_and]
        exact ⟨hs, congrArg (s.keep bs ++ ·) hb, he⟩
      | false =>
        rw [run, if_neg (Bool.eq_false_iff.1 h), after_append_of_not_accepts _ h,
          keep_append_of_not_accepts _ h, accepts_append, h]
        exact ⟨rfl, rfl, rfl⟩

end Sink

namespace Writer

/-- The bytes of an item under a layout. -/
def Item.bytes (l : Layout) (x : Item) : List UInt8 := Event.offered (x.events l)

/-- Writes items one after the other, also after a failure. -/
def writeAll (w : Writer) : List Item → List Step
  | [] => []
  | x :: xs => w.write x :: (w.write x).writer.writeAll xs

/-- The writer after some items. -/
def after (w : Writer) (xs : List Item) : Writer := xs.foldl (fun v x => (v.write x).writer) w

/-- The bytes that steps added to their sink. -/
def kept (steps : List Step) : List UInt8 := steps.flatMap Step.bytes

theorem write_eq (w : Writer) (x : Item) :
    (w.write x).writer.layout = w.layout ∧
    (w.write x).writer.sink = w.sink.after (x.bytes w.layout) ∧
    (w.write x).bytes = w.sink.keep (x.bytes w.layout) ∧
    (w.write x).error =
      if w.sink.accepts (x.bytes w.layout) then none else some (.io w.sink.failure) := by
  obtain ⟨hs, hb, he⟩ := w.sink.run_eq (x.events w.layout)
  refine ⟨rfl, hs, hb, ?_⟩
  show Option.map EmitError.io _ = _
  rw [he]
  unfold Item.bytes
  split_ifs <;> rfl

theorem after_eq (w : Writer) (xs : List Item) :
    (w.after xs).layout = w.layout ∧
    (w.after xs).sink = w.sink.after (xs.flatMap (Item.bytes w.layout)) := by
  induction xs generalizing w with
  | nil => exact ⟨rfl, w.sink.after_nil.symm⟩
  | cons x xs ih =>
    obtain ⟨hl, hs, -, -⟩ := w.write_eq x
    obtain ⟨hl', hs'⟩ := ih (w.write x).writer
    rw [hl] at hl' hs'
    rw [hs, ← Sink.after_append] at hs'
    exact ⟨hl', hs'⟩

theorem kept_writeAll (w : Writer) (xs : List Item) :
    kept (w.writeAll xs) = w.sink.keep (xs.flatMap (Item.bytes w.layout)) := by
  induction xs generalizing w with
  | nil => exact w.sink.keep_nil.symm
  | cons x xs ih =>
    obtain ⟨hl, hs, hb, -⟩ := w.write_eq x
    rw [List.flatMap_cons, Sink.keep_append, ← hb, ← hs, ← hl, ← ih]
    rfl

theorem length_writeAll (w : Writer) (xs : List Item) : (w.writeAll xs).length = xs.length := by
  induction xs generalizing w with
  | nil => rfl
  | cons x xs ih => rw [writeAll, List.length_cons, ih, List.length_cons]

theorem writeAll_take (w : Writer) (xs : List Item) (i : Nat) :
    (w.writeAll xs).take i = w.writeAll (xs.take i) := by
  induction xs generalizing w i with
  | nil => simp [writeAll]
  | cons x xs ih =>
    cases i with
    | zero => rfl
    | succ i => exact congrArg (w.write x :: ·) (ih _ i)

theorem writeAll_getElem? (w : Writer) (xs : List Item) (i : Nat) :
    (w.writeAll xs)[i]? = xs[i]?.map fun x => (w.after (xs.take i)).write x := by
  induction xs generalizing w i with
  | nil => rfl
  | cons x xs ih =>
    cases i with
    | zero => rfl
    | succ i => exact ih _ i

theorem Item.bytes_file (l : Layout) (f : File) :
    Item.bytes l (.file f) = (f.sections.map Item.part).flatMap (Item.bytes l) := by
  show Event.offered (l.emitFile f) = _
  unfold Layout.emitFile
  rw [Event.offered_note, Event.offered_flatMap, List.flatMap_map]
  rfl

/-! ## With and without a limit -/

/-- The steps of a writer whose sink never fails. -/
def full (l : Layout) (xs : List Item) : List Step := (start l .unlimited).writeAll xs

/-- The steps of a writer whose sink keeps `n` bytes and then fails with `e`, which is no
interruption. -/
def cut (l : Layout) (n : Nat) (e : IoError) (he : e.kind ≠ .interrupted) (flush : Option IoError)
    (xs : List Item) : List Step :=
  (start l ⟨some n, e, flush, he⟩).writeAll xs

theorem kept_full (l : Layout) (xs : List Item) : kept (full l xs) = xs.flatMap (Item.bytes l) :=
  kept_writeAll (start l .unlimited) xs

section

variable {l : Layout} {n : Nat} {e : IoError} {he : e.kind ≠ .interrupted} {flush : Option IoError}
  {xs : List Item} {i : Nat}

theorem kept_cut : kept (cut l n e he flush xs) = (xs.flatMap (Item.bytes l)).take n :=
  kept_writeAll (start l ⟨some n, e, flush, he⟩) xs

theorem take_full : (full l xs).take i = full l (xs.take i) := writeAll_take _ xs i

theorem take_cut : (cut l n e he flush xs).take i = cut l n e he flush (xs.take i) :=
  writeAll_take _ xs i

theorem bytes_of_full {x : Step} (h : (full l xs)[i]? = some x) :
    ∃ y, xs[i]? = some y ∧ x.bytes = y.bytes l := by
  unfold full at h
  rw [writeAll_getElem?, Option.map_eq_some_iff] at h
  obtain ⟨y, hy, rfl⟩ := h
  obtain ⟨hl, hs⟩ := after_eq (start l .unlimited) (xs.take i)
  obtain ⟨-, -, hb, -⟩ := write_eq ((start l .unlimited).after (xs.take i)) y
  rw [hs, hl] at hb
  exact ⟨y, hy, hb⟩

/-- A step fails by what is left of the limit after the items before it. -/
theorem error_of_cut {x : Step} {y : Item} (hy : xs[i]? = some y)
    (h : (cut l n e he flush xs)[i]? = some x) :
    x.error = if (y.bytes l).length ≤ n - ((xs.take i).flatMap (Item.bytes l)).length then none
      else some (.io e) := by
  unfold cut at h
  rw [writeAll_getElem?, hy, Option.map_some, Option.some_inj] at h
  obtain ⟨hl, hs⟩ := after_eq (start l ⟨some n, e, flush, he⟩) (xs.take i)
  obtain ⟨-, -, -, hw⟩ := write_eq ((start l ⟨some n, e, flush, he⟩).after (xs.take i)) y
  rw [hs, hl, h] at hw
  rw [hw]
  exact if_congr decide_eq_true_iff rfl rfl

theorem length_kept_take_succ {y : Item} (hy : xs[i]? = some y) :
    (kept ((full l xs).take (i + 1))).length =
      ((xs.take i).flatMap (Item.bytes l)).length + (y.bytes l).length := by
  rw [take_full, kept_full, List.take_add_one, hy, List.flatMap_append, List.length_append]
  simp

end

/-- **A failing sink receives exactly a prefix.** It may fail with any error that does not ask for
another attempt, and every step that fails reports this error. -/
theorem writeAll_limited (l : Layout) (n : Nat) (e : IoError) (he : e.kind ≠ .interrupted)
    (flush : Option IoError) (xs : List Item) :
    (full l xs).length = xs.length ∧ (cut l n e he flush xs).length = xs.length ∧
    (∀ i, kept ((cut l n e he flush xs).take i) = (kept ((full l xs).take i)).take n) ∧
    (∀ i x y, (full l xs)[i]? = some x → (cut l n e he flush xs)[i]? = some y →
      (y.error = none ↔ x.bytes = [] ∨ (kept ((full l xs).take (i + 1))).length ≤ n) ∧
      ∀ err, y.error = some err → err = .io e ∧ err.kind = e.kind) ∧
    ∀ f : File, ((start l .unlimited).write (.file f)).bytes =
      kept (full l (f.sections.map Item.part)) := by
  refine ⟨length_writeAll _ _, length_writeAll _ _, ?_, ?_, ?_⟩
  · intro i
    rw [take_cut, take_full, kept_cut, kept_full]
  · intro i x y hx hy
    obtain ⟨z, hz, hb⟩ := bytes_of_full hx
    have hw := error_of_cut hz hy
    rw [length_kept_take_succ hz, hw, hb, ← List.length_eq_zero_iff]
    split_ifs with hn
    · exact ⟨iff_of_true rfl (by omega), nofun⟩
    · refine ⟨iff_of_false nofun (by omega), ?_⟩
      intro err h
      cases h
      exact ⟨rfl, rfl⟩
  · intro f
    obtain ⟨-, -, hb, -⟩ := write_eq (start l .unlimited) (.file f)
    rw [hb, kept_full, ← Item.bytes_file]
    rfl

/-- The error of a disk that is full. -/
def storageFull : IoError := ⟨⟨"StorageFull"⟩, "No space left on device (os error 28)"⟩

/-- A string for a disk that is full after the closing quote, before the end of the line. -/
theorem writeAll_limited_storageFull : ∃ he : storageFull.kind ≠ .interrupted, ∃ y,
    (cut .standard 10 storageFull he none [.constant ⟨none, .one, false, .string []⟩])[0]? =
      some y ∧
    y.error ≠ none ∧
    ∀ err, y.error = some err → err = .io storageFull ∧ err.kind = storageFull.kind := by
  have he : storageFull.kind ≠ .interrupted := by decide
  obtain ⟨-, -, -, hsteps, -⟩ := writeAll_limited .standard 10 storageFull he none
    [.constant ⟨none, .one, false, .string []⟩]
  obtain ⟨hnone, herr⟩ := hsteps 0 _ _ rfl rfl
  exact ⟨he, _, rfl, fun h => absurd (hnone.1 h) (by decide), herr⟩

end Writer

end AttAsm

import AttAsm.Argument
import AttAsm.Proofs.Frames
import Mathlib.Order.Bounds.Basic

/-!
# Arguments have places of their own

A call of the assigner gives an argument a register that no earlier argument has, or the next slot of
the stack (`Assigner.assign_cases`). Over a list of arguments this keeps the registers apart, and a
stack offset is the sum of the slots in front of it (`Assigner.onStack_offset`), which the function
that is called finds by its own formula.

Main statements: `Assigner.separate_of_length_lt` and `Assigner.onStack_agrees`.
-/

namespace AttAsm

/-! ## Registers for arguments -/

/-- A family is for scalars or for integers. -/
theorem Family.isScalar_eq {f : Family} :
    ∀ v ∈ f.widths, ∀ w ∈ f.widths, v.isScalar = w.isScalar := by
  cases f <;> simp [widths, Width.isScalar]

theorem Width.bytes_le (w : Width) : w.bytes ≤ 8 := by cases w <;> decide

namespace Target

/-- The registers for arguments of width `w`. -/
def registersFor (t : Target) (w : Width) : List Register :=
  if w.isScalar then t.scalarRegisters else t.argumentRegisters

theorem widths_of_mem_argumentRegisters (t : Target) :
    ∀ r ∈ t.argumentRegisters, r.family.widths = [.byte, .word, .long, .quad] := by
  unfold argumentRegisters
  split <;> decide

theorem widths_of_mem_scalarRegisters (t : Target) :
    ∀ r ∈ t.scalarRegisters, r.family.widths = [.single, .double] := by
  unfold scalarRegisters
  split <;> simp [Register.xmm, Family.widths]

/-- A register for arguments of a width has a view of that width. -/
theorem mem_widths_of_mem_registersFor {t : Target} {w : Width} {r : Register}
    (h : r ∈ t.registersFor w) : w ∈ r.family.widths := by
  unfold registersFor at h
  split_ifs at h with hs
  · rw [t.widths_of_mem_scalarRegisters r h]
    cases w <;> simp_all [Width.isScalar]
  · rw [t.widths_of_mem_argumentRegisters r h]
    cases w <;> simp_all [Width.isScalar]

theorem nodup_families (t : Target) (w : Width) :
    ((t.registersFor w).map Register.family).Nodup := by
  unfold registersFor argumentRegisters scalarRegisters
  split_ifs <;> cases t.convention <;> decide

/-- Registers for arguments that share a family are for the same class of widths, at the same
position. -/
theorem eq_of_family_eq {t : Target} {v w : Width} {i j : Nat} {r s : Register}
    (hr : (t.registersFor v)[i]? = some r) (hs : (t.registersFor w)[j]? = some s)
    (h : r.family = s.family) : v.isScalar = w.isScalar ∧ i = j := by
  have hc : v.isScalar = w.isScalar := by
    have hv := mem_widths_of_mem_registersFor (List.mem_of_getElem? hr)
    have hw := mem_widths_of_mem_registersFor (List.mem_of_getElem? hs)
    rw [h] at hv
    exact Family.isScalar_eq v hv w hw
  refine ⟨hc, ?_⟩
  have hl : t.registersFor w = t.registersFor v := by
    unfold registersFor
    rw [hc]
  rw [hl] at hs
  have hi : i < ((t.registersFor v).map Register.family).length := by
    rw [List.length_map]
    exact (List.getElem?_eq_some_iff.1 hr).1
  apply (List.getElem?_inj hi (t.nodup_families v)).1
  rw [List.getElem?_map, List.getElem?_map, hr, hs, Option.map_some, Option.map_some, h]

end Target

/-- The register, if the place is one. -/
def Place.register? : Place → Option Register
  | register r => some r
  | stack _ => none

/-- The offset of a place on the stack. -/
def Place.offset? : Place → Option Nat
  | register _ => none
  | stack o => some o

theorem Register.atWidth_of_mem {r : Register} {w : Width} (h : w ∈ r.family.widths) :
    r.atWidth w = .ok ⟨r.family, w, h⟩ := by
  unfold atWidth sibling? Family.member?
  rw [dif_pos h]

namespace Assigner

/-! ## Slots -/

/-- A slot is one word, or two where the argument is wider than a word. -/
theorem slotBytes_eq (t : Target) (w : Width) :
    slotBytes t w = t.wordBytes + if t.wordBytes < w.bytes then t.wordBytes else 0 := by
  have hb := w.bytes_le
  unfold slotBytes Target.roundUp
  rcases t.wordBytes_eq with h | h <;> rw [h] <;> split_ifs <;> omega

/-- A slot is the least number of whole words, at least one, that has room for the argument. -/
theorem isLeast_slotBytes (t : Target) (w : Width) :
    IsLeast {n | 0 < n ∧ t.wordBytes ∣ n ∧ w.bytes ≤ n} (slotBytes t w) := by
  have hw := t.wordBytes_eq
  constructor
  · have hr : max w.bytes t.wordBytes ≤ slotBytes t w := Target.le_roundUp (by omega)
    exact ⟨by omega, Nat.dvd_mul_left .., by omega⟩
  · rintro n ⟨hn, ⟨k, rfl⟩, hk⟩
    have hb := w.bytes_le
    rw [slotBytes_eq]
    rcases hw with h | h <;> rw [h] at hn hk ⊢ <;> split_ifs <;> omega

theorem slotBytes_le (t : Target) (w : Width) : slotBytes t w ≤ 8 := by
  have hb := w.bytes_le
  rw [slotBytes_eq]
  rcases t.wordBytes_eq with h | h <;> rw [h] <;> split_ifs <;> omega

/-! ## One call -/

/-- The number of registers used of those for width `w`. -/
def count (a : Assigner) (w : Width) : Nat := if w.isScalar then a.scalars else a.integers

/-- One more register of the class of `w` is used. -/
def use (a : Assigner) (w : Width) : Assigner :=
  if w.isScalar then { a with scalars := a.scalars + 1 }
  else { a with integers := a.integers + 1 }

/-- On Win64 positions are counted. -/
theorem nextRegister_of_win64 {a : Assigner} (hc : a.target.convention = .win64) (w : Width) :
    a.nextRegister w = ((a.target.registersFor w)[max a.integers a.scalars]?,
      ⟨a.target, max a.integers a.scalars + 1, max a.integers a.scalars + 1, a.stack⟩) := by
  unfold nextRegister
  rw [hc]
  rfl

/-- Elsewhere the registers of each class are counted while there are some. -/
theorem nextRegister_of_ne_win64 {a : Assigner} (hc : a.target.convention ≠ .win64) (w : Width) :
    a.nextRegister w = ((a.target.registersFor w)[a.count w]?,
      if a.count w < (a.target.registersFor w).length then a.use w else a) := by
  unfold nextRegister Target.registersFor count use
  split
  · contradiction
  · by_cases hw : w.isScalar = true
    · simp only [if_pos hw]
      by_cases hi : a.scalars < a.target.scalarRegisters.length
      · rw [List.getElem?_eq_getElem hi, if_pos hi]
      · rw [List.getElem?_eq_none (Nat.not_lt.1 hi), if_neg hi]
    · simp only [if_neg hw]
      by_cases hi : a.integers < a.target.argumentRegisters.length
      · rw [List.getElem?_eq_getElem hi, if_pos hi]
      · rw [List.getElem?_eq_none (Nat.not_lt.1 hi), if_neg hi]

/-- The family is one of a register that is used up. -/
def Uses (a : Assigner) (f : Family) : Prop :=
  ∃ w i r, (a.target.registersFor w)[i]? = some r ∧ i < a.count w ∧ r.family = f

/-- `b` is for the same target and uses no fewer registers. -/
structure Grows (a b : Assigner) : Prop where
  target : b.target = a.target
  integers : a.integers ≤ b.integers
  scalars : a.scalars ≤ b.scalars

theorem Grows.count {a b : Assigner} (h : a.Grows b) (w : Width) : a.count w ≤ b.count w := by
  unfold Assigner.count
  split_ifs
  · exact h.scalars
  · exact h.integers

theorem Grows.uses {a b : Assigner} (h : a.Grows b) {f : Family} (hf : a.Uses f) : b.Uses f := by
  obtain ⟨w, i, r, hr, hi, rfl⟩ := hf
  exact ⟨w, i, r, h.target ▸ hr, hi.trans_le (h.count w), rfl⟩

/-- A register stands behind those of its class that are used up, and is used up afterwards. -/
structure Takes (a : Assigner) (w : Width) (r : Register) (b : Assigner) : Prop where
  grows : a.Grows b
  position : ∃ i, (a.target.registersFor w)[i]? = some r ∧ a.count w ≤ i ∧ i < b.count w

theorem grows_use (a : Assigner) (w : Width) : a.Grows (a.use w) := by
  unfold use
  split_ifs
  · exact ⟨rfl, Nat.le_refl _, Nat.le_succ _⟩
  · exact ⟨rfl, Nat.le_succ _, Nat.le_refl _⟩

theorem count_use (a : Assigner) (w : Width) : (a.use w).count w = a.count w + 1 := by
  unfold use count
  split_ifs <;> rfl

theorem stack_use (a : Assigner) (w : Width) : (a.use w).stack = a.stack := by
  unfold use
  split_ifs <;> rfl

/-- On Win64 registers are used up by position, elsewhere by class; the stack is left alone. -/
theorem nextRegister_spec (a : Assigner) (w : Width) :
    a.Grows (a.nextRegister w).2 ∧ (a.nextRegister w).2.stack = a.stack ∧
      ∀ r, (a.nextRegister w).1 = some r → a.Takes w r (a.nextRegister w).2 := by
  by_cases hc : a.target.convention = .win64
  · rw [nextRegister_of_win64 hc]
    have hg : a.Grows
        ⟨a.target, max a.integers a.scalars + 1, max a.integers a.scalars + 1, a.stack⟩ :=
      ⟨rfl, by simp only; omega, by simp only; omega⟩
    refine ⟨hg, rfl, fun r hr => ⟨hg, _, hr, ?_⟩⟩
    unfold count
    split_ifs <;> simp only <;> omega
  · rw [nextRegister_of_ne_win64 hc]
    by_cases hi : a.count w < (a.target.registersFor w).length
    · rw [if_pos hi]
      refine ⟨a.grows_use w, a.stack_use w, fun r hr => ⟨a.grows_use w, _, hr, Nat.le_refl _, ?_⟩⟩
      exact (Nat.lt_succ_self _).trans_eq (a.count_use w).symm
    · rw [if_neg hi, List.getElem?_eq_none (Nat.not_lt.1 hi)]
      exact ⟨⟨rfl, Nat.le_refl _, Nat.le_refl _⟩, rfl, fun r hr => nomatch hr⟩

theorem Takes.not_uses {a b : Assigner} {w : Width} {r : Register} (h : a.Takes w r b) :
    ¬ a.Uses r.family := by
  rintro ⟨v, j, s, hs, hj, hf⟩
  obtain ⟨i, hr, hi, -⟩ := h.position
  obtain ⟨hc, rfl⟩ := Target.eq_of_family_eq hs hr hf
  have : a.count v = a.count w := by
    unfold count
    rw [hc]
  omega

theorem Takes.uses {a b : Assigner} {w : Width} {r : Register} (h : a.Takes w r b) :
    b.Uses r.family := by
  obtain ⟨i, hr, -, hi⟩ := h.position
  exact ⟨w, i, r, by rwa [h.grows.target], hi, rfl⟩

/-- What a call gives: an unused register at the argument's width, or the next slot. -/
inductive Gives (a : Assigner) (w : Width) : Place → Assigner → Prop where
  | register {r : Register} {b : Assigner} (width : r.width = w) (grows : a.Grows b)
      (fresh : ¬ a.Uses r.family) (used : b.Uses r.family) (stack : b.stack = a.stack) :
      Gives a w (.register r) b
  | stack {b : Assigner} (grows : a.Grows b)
      (stack : b.stack = a.stack + slotBytes a.target w) : Gives a w (.stack a.stack) b

/-- A call gives a place, unless the stack has grown beyond what offsets can address. -/
theorem assign_cases (a : Assigner) (w : Width) :
    (∃ p b, a.assign w = (.ok p, b) ∧ a.Gives w p b) ∨
      Width.quad.holds a.stack = false ∧
        ∃ b, a.assign w = (.error (.frameTooLarge a.stack), b) ∧ a.Grows b ∧
          b.stack = a.stack := by
  obtain ⟨hg, hs, hr⟩ := a.nextRegister_spec w
  unfold assign
  generalize a.nextRegister w = x at hg hs hr ⊢
  obtain ⟨_ | r, b⟩ := x
  · simp only at hg hs ⊢
    rw [hs]
    by_cases hh : Width.quad.holds a.stack = true
    · rw [addressable_of_holds hh]
      exact .inl ⟨_, _, rfl, .stack ⟨hg.target, hg.integers, hg.scalars⟩ (by rw [hg.target])⟩
    · rw [addressable_of_not_holds hh]
      exact .inr ⟨Bool.eq_false_iff.2 hh, b, rfl, hg, hs⟩
  · have ht := hr r rfl
    obtain ⟨i, hi, -, -⟩ := ht.position
    have hw := Target.mem_widths_of_mem_registersFor (List.mem_of_getElem? hi)
    refine .inl ⟨.register ⟨r.family, w, hw⟩, b, ?_, .register rfl hg ht.not_uses ht.uses hs⟩
    simp only [Register.atWidth_of_mem hw]
    rfl

/-! ## A list of arguments -/

/-- The assigner after some arguments. -/
def after (a : Assigner) (ws : List Width) : Assigner := ws.foldl (fun b w => (b.assign w).2) a

/-- The arguments whose places have some property, from left to right, each with its width. -/
def placed {α : Type} (property : Place → Option α) (a : Assigner) (ws : List Width) :
    List (Width × α) :=
  (ws.zip (a.assignAll ws)).filterMap fun x =>
    match x.2.1 with
    | .ok p => (property p).map (x.1, ·)
    | .error _ => none

/-- The arguments in registers. -/
def inRegisters (a : Assigner) (ws : List Width) : List (Width × Register) :=
  a.placed Place.register? ws

/-- The arguments on the stack with their offsets. -/
def onStack (a : Assigner) (ws : List Width) : List (Width × Nat) := a.placed Place.offset? ws

/-- The bytes of some slots. -/
def slots (t : Target) (xs : List (Width × Nat)) : Nat := (xs.map fun x => slotBytes t x.1).sum

@[simp] theorem slots_nil (t : Target) : slots t [] = 0 := rfl

@[simp] theorem slots_cons (t : Target) (x : Width × Nat) (xs : List (Width × Nat)) :
    slots t (x :: xs) = slotBytes t x.1 + slots t xs := by
  simp [slots]

@[simp] theorem slots_append (t : Target) (xs ys : List (Width × Nat)) :
    slots t (xs ++ ys) = slots t xs + slots t ys := by
  simp [slots]

section Call

variable {a b : Assigner} {w : Width}

theorem after_cons (h : (a.assign w).2 = b) (ws : List Width) :
    a.after (w :: ws) = b.after ws := by
  rw [after, List.foldl_cons, h]
  rfl

variable {α : Type} (property : Place → Option α)

theorem placed_cons_some {p : Place} {y : α} (h : a.assign w = (.ok p, b))
    (hp : property p = some y) (ws : List Width) :
    a.placed property (w :: ws) = (w, y) :: b.placed property ws := by
  simp [placed, assignAll, h, hp]

theorem placed_cons_none {p : Place} (h : a.assign w = (.ok p, b)) (hp : property p = none)
    (ws : List Width) : a.placed property (w :: ws) = b.placed property ws := by
  simp [placed, assignAll, h, hp]

theorem placed_cons_error {e : Error} (h : a.assign w = (.error e, b)) (ws : List Width) :
    a.placed property (w :: ws) = b.placed property ws := by
  simp [placed, assignAll, h]

end Call

theorem stack_after (a : Assigner) (ws : List Width) :
    (a.after ws).stack = a.stack + slots a.target (a.onStack ws) := by
  unfold onStack
  induction ws generalizing a with
  | nil => rfl
  | cons w ws ih =>
    obtain ⟨p, b, h, hp⟩ | ⟨-, b, h, hg, hs⟩ := a.assign_cases w
    · rw [after_cons (congrArg Prod.snd h), ih]
      cases hp with
      | register width grows fresh used stack =>
        rw [placed_cons_none Place.offset? h rfl, grows.target, stack]
      | stack grows stack =>
        rw [placed_cons_some Place.offset? h rfl, grows.target, stack, slots_cons, Nat.add_assoc]
    · rw [after_cons (congrArg Prod.snd h), ih, placed_cons_error Place.offset? h, hg.target, hs]

/-- An argument on the stack stands right behind the slots of those before it. -/
theorem onStack_offset (a : Assigner) {ws : List Width} {k : Nat} {x : Width × Nat}
    (hx : (a.onStack ws)[k]? = some x) :
    x.2 = a.stack + slots a.target ((a.onStack ws).take k) := by
  unfold onStack at hx ⊢
  induction ws generalizing a k with
  | nil => exact nomatch hx
  | cons w ws ih =>
    obtain ⟨p, b, h, hp⟩ | ⟨-, b, h, hg, hs⟩ := a.assign_cases w
    · cases hp with
      | register width grows fresh used stack =>
        rw [placed_cons_none Place.offset? h rfl] at hx ⊢
        rw [ih b hx, grows.target, stack]
      | stack grows stack =>
        rw [placed_cons_some Place.offset? h rfl] at hx ⊢
        cases k with
        | zero => cases hx; rfl
        | succ k =>
          rw [ih b hx, grows.target, stack, List.take_succ_cons, slots_cons, Nat.add_assoc]
    · rw [placed_cons_error Place.offset? h] at hx ⊢
      rw [ih b hx, hg.target, hs]

theorem inRegisters_fresh (a : Assigner) (ws : List Width) :
    ∀ x ∈ a.inRegisters ws, x.2.width = x.1 ∧ ¬ a.Uses x.2.family := by
  unfold inRegisters
  induction ws generalizing a with
  | nil => exact List.forall_mem_nil _
  | cons w ws ih =>
    have hb {b : Assigner} (hg : a.Grows b) :
        ∀ x ∈ b.placed Place.register? ws, x.2.width = x.1 ∧ ¬ a.Uses x.2.family :=
      fun x hx => ⟨(ih b x hx).1, fun hu => (ih b x hx).2 (hg.uses hu)⟩
    obtain ⟨p, b, h, hp⟩ | ⟨-, b, h, hg, hs⟩ := a.assign_cases w
    · cases hp with
      | register width grows fresh used stack =>
        rw [placed_cons_some Place.register? h rfl]
        exact List.forall_mem_cons.2 ⟨⟨width, fresh⟩, hb grows⟩
      | stack grows stack =>
        rw [placed_cons_none Place.register? h rfl]
        exact hb grows
    · rw [placed_cons_error Place.register? h]
      exact hb hg

theorem nodup_inRegisters (a : Assigner) (ws : List Width) :
    ((a.inRegisters ws).map fun x => x.2.family).Nodup := by
  unfold inRegisters
  induction ws generalizing a with
  | nil => exact List.nodup_nil
  | cons w ws ih =>
    obtain ⟨p, b, h, hp⟩ | ⟨-, b, h, hg, hs⟩ := a.assign_cases w
    · cases hp with
      | register width grows fresh used stack =>
        -- The family is used after this call, and later calls give unused ones.
        rw [placed_cons_some Place.register? h rfl, List.map_cons, List.nodup_cons]
        refine ⟨fun hm => ?_, ih b⟩
        obtain ⟨x, hx, hf⟩ := List.mem_map.1 hm
        apply (inRegisters_fresh b ws x hx).2
        rw [hf]
        exact used
      | stack grows stack =>
        rw [placed_cons_none Place.register? h rfl]
        exact ih b
    · rw [placed_cons_error Place.register? h]
      exact ih b

theorem holds_of_lt {n : Nat} (h : n < 2 ^ 63) : Width.quad.holds n = true :=
  Width.holds_natCast_iff.2 h

/-- All calls succeed while the stack can be addressed. -/
theorem assignAll_ok (a : Assigner) (ws : List Width) (h : a.stack + 8 * ws.length < 2 ^ 63) :
    ∀ x ∈ a.assignAll ws, ∃ p, x.1 = .ok p := by
  induction ws generalizing a with
  | nil => exact List.forall_mem_nil _
  | cons w ws ih =>
    rw [List.length_cons] at h
    obtain ⟨p, b, ha, hp⟩ | ⟨hh, -⟩ := a.assign_cases w
    · have hb : b.stack ≤ a.stack + 8 := by
        cases hp with
        | register width grows fresh used stack => omega
        | stack grows stack =>
          have := slotBytes_le a.target w
          omega
      rw [assignAll, ha]
      exact List.forall_mem_cons.2 ⟨⟨p, rfl⟩, ih b (by omega)⟩
    · rw [holds_of_lt (by omega)] at hh
      exact nomatch hh

/-- The call for an argument sees the assigner after those before it. -/
theorem assignAll_getElem? (a : Assigner) (ws : List Width) (i : Nat) :
    (a.assignAll ws)[i]? = ws[i]?.map fun w => (a.after (ws.take i)).assign w := by
  induction ws generalizing a i with
  | nil => rfl
  | cons w ws ih =>
    cases i with
    | zero => rfl
    | succ i => exact ih _ i

theorem length_assignAll (a : Assigner) (ws : List Width) :
    (a.assignAll ws).length = ws.length := by
  induction ws generalizing a with
  | nil => rfl
  | cons w ws ih => rw [assignAll, List.length_cons, ih, List.length_cons]

/-- The assigner that a call leaves behind is the one after all arguments so far. -/
theorem snd_of_assignAll_getElem? {a : Assigner} {ws : List Width} {i : Nat}
    {x : Except Error Place × Assigner} (h : (a.assignAll ws)[i]? = some x) :
    x.2 = a.after (ws.take (i + 1)) := by
  rw [assignAll_getElem?, Option.map_eq_some_iff] at h
  obtain ⟨w, hw, rfl⟩ := h
  rw [List.take_add_one, hw, after, after, List.foldl_append]
  rfl

/-! ## Storage of its own for every argument -/

/-- The end of the last of some slots; without any, the end of the shadow space. -/
def slotsEnd (t : Target) (xs : List (Width × Nat)) : Nat :=
  match xs.getLast? with
  | none => t.shadowSpace
  | some x => x.2 + slotBytes t x.1

theorem slotsEnd_onStack (t : Target) (ws : List Width) :
    slotsEnd t ((start t).onStack ws) = t.shadowSpace + slots t ((start t).onStack ws) := by
  unfold slotsEnd
  split
  · rename_i h
    rw [List.getLast?_eq_none_iff.1 h, slots_nil, Nat.add_zero]
  · rename_i x h
    obtain ⟨ys, hys⟩ := List.getLast?_eq_some_iff.1 h
    have hx : ((start t).onStack ws)[ys.length]? = some x := by
      rw [hys]
      exact List.getElem?_concat_length
    have ho := onStack_offset (start t) hx
    rw [hys, List.take_left' rfl] at ho
    rw [hys, slots_append, slots_cons, slots_nil, ho, Nat.add_zero, Nat.add_assoc]
    rfl

theorem wordBytes_dvd_slots (t : Target) (xs : List (Width × Nat)) :
    t.wordBytes ∣ slots t xs := by
  induction xs with
  | nil => exact Nat.dvd_zero _
  | cons x xs ih =>
    rw [slots_cons]
    exact Nat.dvd_add (isLeast_slotBytes t x.1).1.2.1 ih

theorem wordBytes_dvd_shadowSpace (t : Target) : t.wordBytes ∣ t.shadowSpace := by
  unfold Target.shadowSpace
  rcases t.wordBytes_eq with h | h <;> rw [h] <;> split <;> omega

/-- The places of arguments of widths `ws` have nothing in common. -/
structure Separate (t : Target) (ws : List Width) : Prop where
  length : ((start t).assignAll ws).length = ws.length
  succeeds : ∀ x ∈ (start t).assignAll ws, ∃ p, x.1 = .ok p
  width : ∀ x ∈ (start t).inRegisters ws, x.2.width = x.1
  families : (((start t).inRegisters ws).map fun x => x.2.family).Nodup
  first : ∀ x, ((start t).onStack ws)[0]? = some x → x.2 = t.shadowSpace
  next : ∀ k x y, ((start t).onStack ws)[k]? = some x → ((start t).onStack ws)[k + 1]? = some y →
    y.2 = x.2 + slotBytes t x.1
  aligned : ∀ x ∈ (start t).onStack ws, t.wordBytes ∣ x.2
  size : ∀ i x, ((start t).assignAll ws)[i]? = some x →
    x.2.stack = slotsEnd t ((start t).onStack (ws.take (i + 1)))
  slot : ∀ w, IsLeast {n | 0 < n ∧ t.wordBytes ∣ n ∧ w.bytes ≤ n} (slotBytes t w)

/-- **No two arguments share storage.** -/
theorem separate_of_length_lt (t : Target) (ws : List Width) (h : ws.length < 2 ^ 59) :
    Separate t ws where
  length := length_assignAll (start t) ws
  succeeds := by
    have hs : (start t).stack ≤ 32 := t.shadowSpace_le
    exact assignAll_ok (start t) ws (by omega)
  width x hx := (inRegisters_fresh (start t) ws x hx).1
  families := nodup_inRegisters (start t) ws
  first x hx := onStack_offset (start t) hx
  next k x y hx hy := by
    rw [onStack_offset (start t) hx, onStack_offset (start t) hy, List.take_add_one, hx,
      slots_append, Option.toList_some, slots_cons, slots_nil]
    exact (Nat.add_assoc ..).symm
  aligned x hx := by
    obtain ⟨k, hk⟩ := List.getElem?_of_mem hx
    rw [onStack_offset (start t) hk]
    exact Nat.dvd_add (wordBytes_dvd_shadowSpace t) (wordBytes_dvd_slots ..)
  size i x hx := by
    rw [snd_of_assignAll_getElem? hx, stack_after, slotsEnd_onStack]
    rfl
  slot := isLeast_slotBytes t

/-- Eight bytes take two words of a 32-bit target. -/
theorem separate_of_length_lt_cdecl :
    let ws : List Width := [.byte, .double, .quad, .long]
    Separate ⟨.linux, .bits32⟩ ws ∧
      (start ⟨.linux, .bits32⟩).onStack ws = [(.byte, 0), (.double, 4), (.quad, 12), (.long, 20)] :=
  ⟨separate_of_length_lt _ _ (by decide), by decide⟩

/-! ## Caller and callee -/

/-- Slots are one word each, and one more for each argument that is wider. -/
theorem slots_eq (t : Target) (xs : List (Width × Nat)) :
    slots t xs = xs.length * t.wordBytes +
      t.wordBytes * xs.countP fun x => decide (t.wordBytes < x.1.bytes) := by
  induction xs with
  | nil => simp
  | cons x xs ih =>
    rw [slots_cons, slotBytes_eq, ih, List.length_cons, List.countP_cons, Nat.add_mul,
      Nat.mul_add]
    by_cases h : t.wordBytes < x.1.bytes
    · rw [if_pos h, if_pos (decide_eq_true h)]
      omega
    · rw [if_neg h, if_neg (by simpa using h)]
      omega

theorem stack_after_start (t : Target) (ws : List Width) :
    ((start t).after ws).stack = t.shadowSpace + slots t ((start t).onStack ws) :=
  stack_after (start t) ws

/-- No slot reaches beyond the stack that is used. -/
theorem slot_le_stack_after {t : Target} {ws : List Width} {x : Width × Nat}
    (hx : x ∈ (start t).onStack ws) :
    x.2 + slotBytes t x.1 ≤ ((start t).after ws).stack := by
  obtain ⟨k, hk⟩ := List.getElem?_of_mem hx
  have ho : x.2 = t.shadowSpace + slots t (((start t).onStack ws).take k) :=
    onStack_offset (start t) hk
  have hs : slots t ((start t).onStack ws) = slots t (((start t).onStack ws).take k) +
      (slotBytes t x.1 + slots t (((start t).onStack ws).drop (k + 1))) := by
    obtain ⟨hl, rfl⟩ := List.getElem?_eq_some_iff.1 hk
    rw [← slots_cons, List.cons_getElem_drop_succ, ← slots_append, List.take_append_drop]
  rw [stack_after_start]
  omega

/-- A frame for the stack arguments has room for the stack that is used. -/
theorem stack_after_le_frameSize (t : Target) (ws : List Width) :
    ((start t).after ws).stack ≤
      t.frameSize (((start t).after ws).stack - t.shadowSpace) := by
  have h := t.le_frameSize (((start t).after ws).stack - t.shadowSpace)
  have := stack_after_start t ws
  omega

/-- Only on 32-bit targets are there arguments wider than a word, those of eight bytes. -/
theorem bytes_le_wordBytes {t : Target} {w : Width} (h : t.arch = .bits64 ∨ w.bytes ≠ 8) :
    w.bytes ≤ t.wordBytes := by
  obtain ⟨_, _ | _⟩ := t <;> cases w <;>
    simp_all [Width.bytes, Width.bits, Target.wordBytes, Target.wordWidth]

theorem countP_wider_eq_zero {t : Target} {xs : List (Width × Nat)}
    (h : t.arch = .bits64 ∨ ∀ y ∈ xs, y.1.bytes ≠ 8) :
    xs.countP (fun y => decide (t.wordBytes < y.1.bytes)) = 0 := by
  rw [List.countP_eq_zero]
  intro y hy
  have : y.1.bytes ≤ t.wordBytes := bytes_le_wordBytes (h.imp_right fun h => h y hy)
  simpa using this

/-- Between the caller's offset and the frame pointer there are two words, and a word for each earlier
argument that is wider than a word is missing in the callee's formula. -/
theorem offset_add_two_words {t : Target} {ws : List Width} {k : Nat} {x : Width × Nat}
    (hx : ((start t).onStack ws)[k]? = some x) :
    x.2 + 2 * t.wordBytes = t.stackArgumentOffset k + t.wordBytes *
      (((start t).onStack ws).take k).countP fun y => decide (t.wordBytes < y.1.bytes) := by
  have hl : (((start t).onStack ws).take k).length = k :=
    List.length_take_of_le (List.getElem?_eq_some_iff.1 hx).1.le
  have ho : x.2 = t.shadowSpace + slots t (((start t).onStack ws).take k) :=
    onStack_offset (start t) hx
  rw [ho, slots_eq, hl, Target.stackArgumentOffset, Target.linkBytes]
  omega

/-- **Caller and callee agree on stack arguments**, up to a word for each earlier argument that is
wider than a word. -/
theorem onStack_agrees (t : Target) (ws : List Width) :
    let xs := (start t).onStack ws
    let size := ((start t).after ws).stack
    (∀ k x, xs[k]? = some x → x.2 + 2 * t.wordBytes = t.stackArgumentOffset k +
      t.wordBytes * (xs.take k).countP fun y => decide (t.wordBytes < y.1.bytes)) ∧
    (∀ k x, xs[k]? = some x → (t.arch = .bits64 ∨ ∀ y ∈ xs.take k, y.1.bytes ≠ 8) →
      t.stackArgumentOffset k = x.2 + 2 * t.wordBytes) ∧
    size ≤ t.frameSize (size - t.shadowSpace) ∧
    ∀ x ∈ xs, x.2 + slotBytes t x.1 ≤ t.frameSize (size - t.shadowSpace) := by
  intro xs size
  refine ⟨fun k x hx => offset_add_two_words hx, ?_, stack_after_le_frameSize t ws, ?_⟩
  · intro k x hx h
    have ho := offset_add_two_words hx
    rw [countP_wider_eq_zero h] at ho
    omega
  · intro x hx
    exact (slot_le_stack_after hx).trans (stack_after_le_frameSize t ws)

-- The second argument is at 16 from the frame pointer, where the formula has 12.
example : (start ⟨.linux, .bits32⟩).onStack [.double, .long] = [(.double, 0), (.long, 8)] ∧
    Target.stackArgumentOffset ⟨.linux, .bits32⟩ 1 = 12 := by decide

end Assigner

end AttAsm

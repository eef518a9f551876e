import AttAsm.Proofs.ArgumentPlaces
import Mathlib.Data.List.Induction

/-!
# Places in closed form

Where a convention puts an argument depends on the arguments in front of it: on Win64 on their number,
on System V on how many of each class there are, on 32-bit targets on the sum of their slots
(`Target.Puts`). The counters of the assigner follow these numbers. `Assigner.behind` says what they
are behind a list of arguments, and one call leads from there to the list with one more argument
(`Assigner.assign_behind`).

Main statement: `Assigner.assignAll_puts`.
-/

namespace AttAsm

/-! ## What the conventions say -/

/-- The number of integer arguments. -/
def integersIn (ws : List Width) : Nat := ws.countP fun w => !w.isScalar

/-- The number of scalar arguments. -/
def scalarsIn (ws : List Width) : Nat := ws.countP Width.isScalar

/-- The number of arguments of the class of `w`. -/
def classIn (w : Width) (ws : List Width) : Nat := if w.isScalar then scalarsIn ws else integersIn ws

/-- The bytes of some arguments in slots of 32-bit words. -/
def slotsOfLongs (ws : List Width) : Nat :=
  (ws.map fun w => if w = .quad ∨ w = .double then 8 else 4).sum

/-- The first `n` vector registers. -/
def vectorsBelow (n : Nat) : List Register := ((List.finRange 16).take n).map .xmm

@[simp] theorem length_vectorsBelow (n : Nat) : (vectorsBelow n).length = min n 16 := by
  rw [vectorsBelow, List.length_map, List.length_take, List.length_finRange]

example : vectorsBelow 4 = [.xmm 0, .xmm 1, .xmm 2, .xmm 3] := rfl

namespace Place

/-- Register number `i` of `rs`, at width `w`. -/
def IsView (p : Place) (rs : List Register) (i : Nat) (w : Width) : Prop :=
  ∃ r q : Register, rs[i]? = some r ∧ q.family = r.family ∧ q.width = w ∧ p = .register q

/-- Four positions have registers, of either class. -/
def ByPosition (before : List Width) (w : Width) (p : Place) : Prop :=
  if before.length < 4 then
    p.IsView (if w.isScalar then vectorsBelow 4 else [.rcx, .rdx, .r8, .r9]) before.length w
  else p = .stack (32 + 8 * (before.length - 4))

/-- Each class has registers of its own, and what is left of both shares the stack. -/
def ByClass (before : List Width) (w : Width) (p : Place) : Prop :=
  if w.isScalar = false ∧ integersIn before < 6 then
    p.IsView [.rdi, .rsi, .rdx, .rcx, .r8, .r9] (integersIn before) w
  else if w.isScalar = true ∧ scalarsIn before < 8 then
    p.IsView (vectorsBelow 8) (scalarsIn before) w
  else p = .stack (8 * ((integersIn before - 6) + (scalarsIn before - 8)))

end Place

/-- The place of an argument of width `w` behind arguments of widths `before`. -/
def Target.Puts (t : Target) (before : List Width) (w : Width) (p : Place) : Prop :=
  match t.arch, t.os with
  | .bits64, .windows => p.ByPosition before w
  | .bits64, _ => p.ByClass before w
  | .bits32, _ => p = .stack (slotsOfLongs before)

section

variable (ws : List Width) (w : Width)

theorem integersIn_concat : integersIn (ws ++ [w]) = integersIn ws + if w.isScalar then 0 else 1 := by
  rw [integersIn, List.countP_append, List.countP_singleton]
  cases w.isScalar <;> rfl

theorem scalarsIn_concat : scalarsIn (ws ++ [w]) = scalarsIn ws + if w.isScalar then 1 else 0 := by
  rw [scalarsIn, List.countP_append, List.countP_singleton]
  rfl

/-- Every argument is of one class. -/
theorem integersIn_add_scalarsIn : integersIn ws + scalarsIn ws = ws.length := by
  rw [List.length_eq_countP_add_countP Width.isScalar, Nat.add_comm]
  simp [integersIn, scalarsIn]

theorem slotsOfLongs_concat :
    slotsOfLongs (ws ++ [w]) = slotsOfLongs ws + if w = .quad ∨ w = .double then 8 else 4 := by
  rw [slotsOfLongs, List.map_append, List.sum_append]
  simp [slotsOfLongs]

theorem slotsOfLongs_le : slotsOfLongs ws ≤ 8 * ws.length := by
  induction ws with
  | nil => exact Nat.le_refl 0
  | cons v ws ih =>
    have hv : (if v = .quad ∨ v = .double then 8 else 4) ≤ 8 := by split_ifs <;> omega
    have hs : slotsOfLongs (v :: ws) =
        (if v = .quad ∨ v = .double then 8 else 4) + slotsOfLongs ws := List.sum_cons
    rw [hs, List.length_cons]
    omega

end

namespace Assigner

/-! ## One call -/

/-- One more slot is used. -/
def reserve (a : Assigner) (w : Width) : Assigner :=
  { a with stack := a.stack + slotBytes a.target w }

section Call

variable {a b : Assigner} {w : Width} {i : Nat}

/-- A register that is left is given at the width of the argument. -/
theorem assign_of_lt (h : a.nextRegister w = ((a.target.registersFor w)[i]?, b))
    (hi : i < (a.target.registersFor w).length) :
    ∃ p, a.assign w = (.ok p, b) ∧ p.IsView (a.target.registersFor w) i w := by
  obtain ⟨r, hr⟩ : ∃ r, (a.target.registersFor w)[i]? = some r :=
    ⟨_, List.getElem?_eq_getElem hi⟩
  have hw := Target.mem_widths_of_mem_registersFor (List.mem_of_getElem? hr)
  refine ⟨.register ⟨r.family, w, hw⟩, ?_, r, ⟨r.family, w, hw⟩, hr, rfl, rfl, rfl⟩
  unfold assign
  rw [h, hr]
  show ((r.atWidth w).map Place.register, b) = _
  rw [Register.atWidth_of_mem hw]
  rfl

/-- Without a register that is left, the argument gets the next slot. -/
theorem assign_of_le (h : a.nextRegister w = ((a.target.registersFor w)[i]?, b))
    (hi : (a.target.registersFor w).length ≤ i) (hs : b.stack < 2 ^ 63) :
    a.assign w = (.ok (.stack b.stack), b.reserve w) := by
  unfold assign
  simp only [h, List.getElem?_eq_none hi, addressable_of_holds (holds_of_lt hs)]
  rfl

/-- With `c` arguments of a class in front, one of that class gets register number `c`, or a slot
where there is no such register. -/
theorem assign_of_count {c : Nat} (hc : a.target.convention ≠ .win64)
    (hcount : a.count w = min c (a.target.registersFor w).length) (hs : a.stack < 2 ^ 63) :
    (c < (a.target.registersFor w).length ∧
      ∃ p, a.assign w = (.ok p, a.use w) ∧ p.IsView (a.target.registersFor w) c w) ∨
    (a.target.registersFor w).length ≤ c ∧
      a.assign w = (.ok (.stack a.stack), a.reserve w) := by
  have hnext := nextRegister_of_ne_win64 hc w
  rw [hcount] at hnext
  by_cases hlt : c < (a.target.registersFor w).length
  · rw [Nat.min_eq_left hlt.le, if_pos hlt] at hnext
    exact .inl ⟨hlt, assign_of_lt hnext hlt⟩
  · rw [Nat.min_eq_right (Nat.not_lt.1 hlt), if_neg (Nat.lt_irrefl _)] at hnext
    exact .inr ⟨Nat.not_lt.1 hlt, assign_of_le hnext (Nat.le_refl _) hs⟩

end Call

/-! ## Behind a list of arguments -/

/-- The assigner behind arguments of widths `ws`. -/
def behind (t : Target) (ws : List Width) : Assigner :=
  match t.convention with
  | .win64 => ⟨t, ws.length, ws.length, 32 + 8 * (ws.length - 4)⟩
  | .sysV => ⟨t, min (integersIn ws) 6, min (scalarsIn ws) 8,
      8 * ((integersIn ws - 6) + (scalarsIn ws - 8))⟩
  | .cdecl => ⟨t, 0, 0, slotsOfLongs ws⟩

theorem behind_nil (t : Target) : behind t [] = start t := by
  unfold behind start Target.shadowSpace
  cases t.convention <;> rfl

/-- The offsets of all arguments can be addressed. -/
theorem stack_behind_lt {t : Target} {ws : List Width} (h : ws.length < 2 ^ 59) :
    (behind t ws).stack < 2 ^ 63 := by
  have hc := integersIn_add_scalarsIn ws
  have hl := slotsOfLongs_le ws
  unfold behind
  cases t.convention <;> simp only <;> omega

/-- On 64-bit targets all slots are of one size. -/
theorem slotBytes_of_bits64 {t : Target} (h : t.arch = .bits64) (w : Width) :
    slotBytes t w = 8 := by
  have hb := bytes_le_wordBytes (w := w) (.inl h)
  have ht : t.wordBytes = 8 := by
    rw [Target.wordBytes, Target.wordWidth, h]
    rfl
  rw [slotBytes_eq, if_neg (by omega), ht]

theorem slotBytes_of_bits32 {t : Target} (h : t.arch = .bits32) (w : Width) :
    slotBytes t w = if w = .quad ∨ w = .double then 8 else 4 := by
  have ht : t.wordBytes = 4 := by
    rw [Target.wordBytes, Target.wordWidth, h]
    rfl
  rw [slotBytes_eq, ht]
  cases w <;> rfl

section Step

variable {t : Target} {ws : List Width}

theorem arch_of_convention (h : t.convention ≠ .cdecl) : t.arch = .bits64 := by
  obtain ⟨_, _ | _⟩ := t
  · exact absurd rfl h
  · rfl

theorem arch_of_cdecl (h : t.convention = .cdecl) : t.arch = .bits32 := by
  obtain ⟨_ | _ | _, _ | _⟩ := t <;> first | rfl | cases h

theorem registersFor_win64 (hc : t.convention = .win64) (w : Width) : t.registersFor w =
    if w.isScalar then vectorsBelow 4 else [.rcx, .rdx, .r8, .r9] := by
  rw [Target.registersFor, Target.scalarRegisters, Target.argumentRegisters, hc]
  rfl

theorem registersFor_sysV (hc : t.convention = .sysV) (w : Width) : t.registersFor w =
    if w.isScalar then vectorsBelow 8 else [.rdi, .rsi, .rdx, .rcx, .r8, .r9] := by
  rw [Target.registersFor, Target.scalarRegisters, Target.argumentRegisters, hc]
  rfl

theorem registersFor_cdecl (hc : t.convention = .cdecl) (w : Width) : t.registersFor w = [] := by
  rw [Target.registersFor, Target.scalarRegisters, Target.argumentRegisters, hc, ite_self]

/-- The next argument on Win64. -/
theorem assign_behind_win64 (hc : t.convention = .win64) (h : ws.length < 2 ^ 59) (w : Width) :
    ∃ p, (behind t ws).assign w = (.ok p, behind t (ws ++ [w])) ∧ p.ByPosition ws w := by
  have hb (vs : List Width) :
      behind t vs = ⟨t, vs.length, vs.length, 32 + 8 * (vs.length - 4)⟩ := by
    rw [behind, hc]
  have hlen : (t.registersFor w).length = 4 := by
    rw [registersFor_win64 hc]
    split_ifs <;> rfl
  have hs := stack_behind_lt (t := t) h
  rw [hb] at hs
  have hnext := nextRegister_of_win64 (a := ⟨t, ws.length, ws.length, 32 + 8 * (ws.length - 4)⟩) hc w
  simp only [Nat.max_self] at hnext
  unfold Place.ByPosition
  rw [← registersFor_win64 hc, hb, hb, List.length_append, List.length_singleton]
  by_cases hi : ws.length < 4
  · obtain ⟨p, hp, hv⟩ := assign_of_lt hnext (hi.trans_eq hlen.symm)
    rw [show ws.length + 1 - 4 = ws.length - 4 by omega]
    exact ⟨p, hp, (if_pos hi).mpr hv⟩
  · have hp := assign_of_le hnext (hlen.trans_le (by omega)) hs
    refine ⟨_, hp.trans ?_, (if_neg hi).mpr rfl⟩
    rw [show 32 + 8 * (ws.length + 1 - 4) = 32 + 8 * (ws.length - 4) + 8 by omega, reserve,
      slotBytes_of_bits64 (arch_of_convention (by rw [hc]; decide))]

/-- The registers of a class that are used. -/
theorem count_behind (hc : t.convention ≠ .win64) (w : Width) :
    (behind t ws).count w = min (classIn w ws) (t.registersFor w).length := by
  cases hcv : t.convention with
  | win64 => exact absurd hcv hc
  | sysV =>
    rw [registersFor_sysV hcv, behind, hcv, count, classIn]
    cases w.isScalar <;> rfl
  | cdecl =>
    rw [registersFor_cdecl hcv, behind, hcv, count, ite_self]
    exact (Nat.min_zero _).symm

/-- One more argument uses a register of its class, or a slot if there is none. -/
theorem behind_concat (hc : t.convention ≠ .win64) (w : Width) :
    behind t (ws ++ [w]) = if classIn w ws < (t.registersFor w).length then (behind t ws).use w
      else (behind t ws).reserve w := by
  cases hcv : t.convention with
  | win64 => exact absurd hcv hc
  | sysV =>
    have hslot := slotBytes_of_bits64 (arch_of_convention (t := t) (by rw [hcv]; decide)) w
    rw [registersFor_sysV hcv, behind, behind, hcv, integersIn_concat, scalarsIn_concat, classIn, use,
      reserve, hslot]
    cases w.isScalar <;>
      simp only [reduceIte, Bool.false_eq_true, List.length_cons, List.length_nil,
        length_vectorsBelow] <;>
      split_ifs <;> simp only [Assigner.mk.injEq, true_and] <;> omega
  | cdecl =>
    have hno : ¬ classIn w ws < (t.registersFor w).length := by
      rw [registersFor_cdecl hcv]
      exact Nat.not_lt_zero _
    rw [if_neg hno, behind, behind, hcv, reserve, slotsOfLongs_concat,
      slotBytes_of_bits32 (arch_of_cdecl hcv)]

/-- The next argument where registers are counted by class. -/
theorem assign_behind_class (hc : t.convention ≠ .win64) (h : ws.length < 2 ^ 59) (w : Width) :
    ∃ p, (behind t ws).assign w = (.ok p, behind t (ws ++ [w])) ∧
      if classIn w ws < (t.registersFor w).length then p.IsView (t.registersFor w) (classIn w ws) w
      else p = .stack (behind t ws).stack := by
  have ht : (behind t ws).target = t := by
    unfold behind
    cases t.convention <;> rfl
  have hcall := assign_of_count (a := behind t ws) (c := classIn w ws) (w := w) (by rwa [ht])
    (by rw [ht, count_behind hc]) (stack_behind_lt h)
  rw [ht] at hcall
  rw [behind_concat hc]
  rcases hcall with ⟨hlt, p, hp, hv⟩ | ⟨hle, hp⟩
  · rw [if_pos hlt]
    exact ⟨p, hp, (if_pos hlt).mpr hv⟩
  · rw [if_neg (Nat.not_lt.2 hle)]
    exact ⟨_, hp, (if_neg (Nat.not_lt.2 hle)).mpr rfl⟩

theorem puts_of_win64 (hc : t.convention = .win64) {w : Width} {p : Place}
    (h : p.ByPosition ws w) : t.Puts ws w p := by
  obtain ⟨_ | _ | _, _ | _⟩ := t <;> first | exact h | cases hc

theorem puts_of_sysV (hc : t.convention = .sysV) {w : Width} {p : Place} (h : p.ByClass ws w) :
    t.Puts ws w p := by
  obtain ⟨_ | _ | _, _ | _⟩ := t <;> first | exact h | cases hc

theorem puts_of_cdecl (hc : t.convention = .cdecl) {w : Width} :
    t.Puts ws w (.stack (slotsOfLongs ws)) := by
  obtain ⟨_ | _ | _, _ | _⟩ := t <;> first | rfl | cases hc

/-- One call leads from the arguments in front to those with one more, and puts that one where the
convention says. -/
theorem assign_behind (h : ws.length < 2 ^ 59) (w : Width) :
    ∃ p, (behind t ws).assign w = (.ok p, behind t (ws ++ [w])) ∧ t.Puts ws w p := by
  cases hcv : t.convention with
  | win64 =>
    obtain ⟨p, hp, hv⟩ := assign_behind_win64 hcv h w
    exact ⟨p, hp, puts_of_win64 hcv hv⟩
  | sysV =>
    obtain ⟨p, hp, hv⟩ := assign_behind_class (by rw [hcv]; decide) h w
    refine ⟨p, hp, puts_of_sysV hcv ?_⟩
    unfold Place.ByClass
    rw [registersFor_sysV hcv, classIn, behind, hcv] at hv
    cases hw : w.isScalar <;> simpa [hw] using hv
  | cdecl =>
    obtain ⟨p, hp, hv⟩ := assign_behind_class (by rw [hcv]; decide) h w
    rw [registersFor_cdecl hcv, behind, hcv] at hv
    obtain rfl : p = .stack (slotsOfLongs ws) := (if_neg (Nat.not_lt_zero _)).mp hv
    exact ⟨_, hp, puts_of_cdecl hcv⟩

end Step

/-- The assigner after some arguments. -/
theorem after_start {t : Target} {ws : List Width} (h : ws.length ≤ 2 ^ 59) :
    (start t).after ws = behind t ws := by
  induction ws using List.reverseRecOn with
  | nil => exact (behind_nil t).symm
  | append_singleton ws w ih =>
    rw [List.length_append, List.length_singleton] at h
    have hlt : ws.length < 2 ^ 59 := by omega
    obtain ⟨p, hp, -⟩ := assign_behind (t := t) hlt w
    have hstep : (start t).after (ws ++ [w]) = (((start t).after ws).assign w).2 := by
      rw [after, List.foldl_append]
      rfl
    rw [hstep, ih hlt.le, hp]

/-- **The assigner follows the conventions.** Each of fewer than `2 ^ 59` arguments gets the place that
the arguments in front of it leave to it: on Win64 a register or slot by its position, on System V a
register of its class or a slot behind what is left of both classes, on 32-bit targets the slot behind
theirs. -/
theorem assignAll_puts (t : Target) (ws : List Width) (h : ws.length < 2 ^ 59) (i : Nat) (w : Width)
    (hw : ws[i]? = some w) :
    ∃ p b, ((start t).assignAll ws)[i]? = some (.ok p, b) ∧ t.Puts (ws.take i) w p := by
  have hi : (ws.take i).length < 2 ^ 59 := (List.length_take_le' i ws).trans_lt h
  obtain ⟨p, hp, hput⟩ := assign_behind (t := t) hi w
  refine ⟨p, behind t (ws.take i ++ [w]), ?_, hput⟩
  rw [assignAll_getElem?, hw, Option.map_some, after_start hi.le, hp]

/-- The last of eight integers among nine scalars stands behind one slot of each class. -/
theorem assignAll_puts_mixed :
    let ws : List Width := List.replicate 9 .double ++ List.replicate 8 .long
    ws[16]? = some .long ∧
      ∃ p b, ((start .standard).assignAll ws)[16]? = some (.ok p, b) ∧ p = .stack 16 := by
  refine ⟨by decide, ?_⟩
  obtain ⟨p, b, hp, hput⟩ := assignAll_puts .standard
    (List.replicate 9 .double ++ List.replicate 8 .long) (by decide) 16 .long (by decide)
  exact ⟨p, b, hp, hput⟩

end Assigner

end AttAsm

import AttAsm.Proofs.Building
import AttAsm.Proofs.Execution
import Mathlib.Tactic.Abel
import Mathlib.Tactic.SplitIfs

/-!
# Frames

What a prologue does to the machine and how an epilogue takes it back. In between the frame pointer
stays one word below the stack pointer that the function was entered with, and the two words from
there on are the caller's frame pointer and the return address (`State.Inside`). From any such state
an epilogue returns (`Placement.returns_epilogue`).
-/

namespace AttAsm

namespace Width

/-- The immediates of a width are the signed numbers of its size. -/
theorem signedRange_eq (w : Width) : w.signedRange = (-2 ^ (w.bits - 1), 2 ^ (w.bits - 1) - 1) := by
  cases w <;> rfl

theorem low_eq (w : Width) : w.low = -2 ^ (w.bits - 1) := congrArg Prod.fst w.signedRange_eq

theorem high_eq (w : Width) : w.high = 2 ^ (w.bits - 1) - 1 := congrArg Prod.snd w.signedRange_eq

/-- The numbers from zero on that a width holds, as signed numbers. -/
theorem holds_natCast_iff {w : Width} {n : Nat} : w.holds n = true ↔ n < 2 ^ (w.bits - 1) := by
  have hpow : (2 : Int) ^ (w.bits - 1) = (2 ^ (w.bits - 1) : Nat) := (Int.natCast_pow 2 _).symm
  rw [holds_iff, low_eq, high_eq, hpow]
  omega

/-- What a width holds is a signed number of 64 bits. -/
theorem holds_quad {w : Width} {n : Nat} (h : w.holds n = true) : quad.holds n = true := by
  have hw : w.bits - 1 ≤ 63 := by cases w <;> decide
  rw [holds_natCast_iff] at h ⊢
  exact h.trans_le (Nat.pow_le_pow_right Nat.two_pos hw)

end Width

namespace Target

/-! ## Sizes -/

theorem le_roundUp {n m : Nat} (hm : 0 < m) : n ≤ roundUp n m := by
  have h := Nat.div_add_mod (n + m - 1) m
  have hr := Nat.mod_lt (n + m - 1) hm
  rw [roundUp, Nat.mul_comm]
  omega

theorem roundUp_lt {n m : Nat} (hm : 0 < m) : roundUp n m < n + m := by
  have h := Nat.div_mul_le_self (n + m - 1) m
  rw [roundUp]
  omega

theorem stackAlignment_pos (t : Target) : 0 < t.stackAlignment := by
  obtain ⟨_ | _ | _, _ | _⟩ := t <;> decide

theorem stackAlignment_le (t : Target) : t.stackAlignment ≤ 16 := by
  obtain ⟨_ | _ | _, _ | _⟩ := t <;> decide

theorem shadowSpace_le (t : Target) : t.shadowSpace ≤ 32 := by
  obtain ⟨_ | _ | _, _ | _⟩ := t <;> decide

/-- With the return address and the saved frame pointer a frame is a multiple of the alignment. -/
theorem stackAlignment_dvd_frameSize (t : Target) (locals : Nat) :
    t.stackAlignment ∣ t.frameSize locals + t.linkBytes := by
  have h : t.linkBytes ≤ roundUp (locals + t.shadowSpace + t.linkBytes) t.stackAlignment :=
    (Nat.le_add_left ..).trans (le_roundUp t.stackAlignment_pos)
  rw [frameSize, Nat.sub_add_cancel h]
  exact Nat.dvd_mul_left ..

/-- A frame has room for the locals and the shadow space. -/
theorem le_frameSize (t : Target) (locals : Nat) : locals + t.shadowSpace ≤ t.frameSize locals := by
  have h : locals + t.shadowSpace + t.linkBytes ≤ _ := le_roundUp t.stackAlignment_pos
  rw [frameSize]
  omega

theorem frameSize_lt (t : Target) (locals : Nat) :
    t.frameSize locals < locals + t.shadowSpace + t.stackAlignment := by
  have h : _ < locals + t.shadowSpace + t.linkBytes + t.stackAlignment :=
    roundUp_lt t.stackAlignment_pos
  have := t.stackAlignment_pos
  rw [frameSize]
  omega

/-! ## Prologues -/

/-- The instructions of a prologue that takes `size` bytes. -/
def frame (t : Target) (size : Nat) : List Instruction :=
  [.unary .push t.framePointer, .binary .mov t.stackPointer t.framePointer t.wordWidth]
    ++ if 0 < size then [.immediate .sub size t.stackPointer] else []

theorem isLabelOf_frame {t : Target} {size : Nat} {name : String} :
    ∀ i ∈ t.frame size, i.isLabelOf name = false := by
  unfold frame
  split_ifs <;> simp [Instruction.isLabelOf]

theorem mkBinary_pointers (t : Target) :
    Instruction.mkBinary .mov t.stackPointer t.framePointer =
      .ok (.binary .mov t.stackPointer t.framePointer t.wordWidth) := by
  obtain ⟨_, _ | _⟩ := t <;> rfl

theorem result_prologue {t : Target} {locals : Nat}
    (h : t.wordWidth.holds (t.frameSize locals) = true) :
    (t.prologue locals).result = .ok (t.frame (t.frameSize locals)) := by
  have hm := t.mkBinary_pointers
  have ha := addressable_of_holds (Width.holds_quad h)
  have hi : Instruction.mkImmediate .sub (t.frameSize locals) t.stackPointer =
      .ok (.immediate .sub (t.frameSize locals) t.stackPointer) :=
    Instruction.mkImmediate_eq_ok_iff.2 ⟨by rwa [t.whole_stackPointer.width], rfl⟩
  by_cases hf : 0 < t.frameSize locals
  · simp only [prologue, frame, hm, Logged.lift_ok_bind, if_pos hf, ha, hi]
    rfl
  · simp only [prologue, frame, hm, Logged.lift_ok_bind, if_neg hf]
    rfl

end Target

namespace State

variable {t : Target} {s u : State t}

/-- The state after a prologue that takes `size` bytes. -/
def enter (s : State t) (size : Nat) : State t :=
  ((s.push s.base).assign (.pointer .bp) (s.top - t.wordStep)).assign (.pointer .sp)
    (s.top - t.wordStep - BitVec.ofNat _ size)

/-- Taking no bytes leaves the stack pointer at the frame pointer. -/
theorem enter_zero (s : State t) :
    s.enter 0 = (s.push s.base).assign (.pointer .bp) (s.top - t.wordStep) := by
  have h : (s.top - t.wordStep - BitVec.ofNat _ 0 : t.Word) =
      ((s.push s.base).assign (.pointer .bp) (s.top - t.wordStep)).registers (.pointer .sp) := by
    simp [registers_push]
  rw [enter, h, assign, Function.update_eq_self]

theorem registers_enter (s : State t) (size : Nat) (f : Family) :
    (s.enter size).registers f =
      if f = .pointer .sp then s.top - t.wordStep - BitVec.ofNat _ size
      else if f = .pointer .bp then s.top - t.wordStep else s.registers f := by
  rw [enter, registers_assign, registers_assign, registers_push]
  split_ifs <;> rfl

theorem registers_enter_of_ne (s : State t) (size : Nat) {f : Family} (hs : f ≠ .pointer .sp)
    (hb : f ≠ .pointer .bp) : (s.enter size).registers f = s.registers f := by
  rw [registers_enter, if_neg hs, if_neg hb]

/-- The word above the return address stays. -/
theorem load_enter_above (s : State t) (size : Nat) :
    (s.enter size).load (s.top + t.wordStep) = s.load (s.top + t.wordStep) :=
  load_push_of_sub_eq (e := t.wordBytes) (add_sub_cancel_left ..) (by
    have := t.two_pow_le
    have := t.wordBytes_eq
    omega)

theorem dvd_toNat_sub {k d m : Nat} {x : BitVec k} (hk : d ∣ 2 ^ k) (hx : d ∣ x.toNat)
    (hm : d ∣ m) : d ∣ (x - BitVec.ofNat k m).toNat := by
  rw [BitVec.toNat_sub, BitVec.toNat_ofNat, Nat.dvd_mod_iff hk]
  exact Nat.dvd_add (Nat.dvd_sub hk ((Nat.dvd_mod_iff hk).2 hm)) hx

/-- Below a frame the stack is aligned, if it was when the function was called. -/
theorem aligned_below_frame (ha : t.stackAlignment ∣ (s.top + t.wordStep).toNat) (locals : Nat) :
    t.stackAlignment ∣ (s.top - t.wordStep - BitVec.ofNat _ (t.frameSize locals)).toNat := by
  have hk : t.stackAlignment ∣ 2 ^ t.wordWidth.bits := by
    obtain ⟨_ | _ | _, _ | _⟩ := t <;> decide
  have hu : s.top - t.wordStep - BitVec.ofNat _ (t.frameSize locals) =
      s.top + t.wordStep - BitVec.ofNat _ (t.frameSize locals + t.linkBytes) := by
    rw [Target.linkBytes, two_mul, BitVec.ofNat_add, BitVec.ofNat_add, Target.wordStep]
    abel
  rw [hu]
  exact dvd_toNat_sub hk ha (t.stackAlignment_dvd_frameSize locals)

theorem effects_frame (s : State t) (size : Nat) :
    ∃ fl, s.effects (t.frame size) = some { s.enter size with flags := fl } := by
  have hp : s.effect (.unary .push t.framePointer) = some (s.push s.base) :=
    effect_push t.whole_framePointer s
  have hm : (s.push s.base).effect
      (.binary .mov t.stackPointer t.framePointer t.wordWidth) =
        some ((s.push s.base).assign (.pointer .bp) (s.top - t.wordStep)) := by
    rw [effect_mov t.whole_stackPointer t.whole_framePointer, registers_push, if_pos rfl]
  rw [Target.frame, List.cons_append, effects_cons hp, List.cons_append, effects_cons hm,
    List.nil_append]
  by_cases h : 0 < size
  · refine ⟨some (.ofSub (s.top - t.wordStep) (BitVec.ofNat _ size)), ?_⟩
    rw [if_pos h, effects_cons (effect_sub_immediate t.whole_stackPointer _), effects_nil,
      registers_assign, if_neg (by decide), registers_push, if_pos rfl, BitVec.ofInt_natCast]
    rfl
  · obtain rfl : size = 0 := by omega
    exact ⟨s.flags, by rw [if_neg h, effects_nil, enter_zero]; rfl⟩

/-- `u` is a state inside a function that was entered with `s`: the frame pointer is in place, and
what a return needs is where it was. -/
structure Inside (s u : State t) : Prop where
  base_eq : u.base = s.top - t.wordStep
  load_base : u.load (s.top - t.wordStep) = s.base
  load_top : u.load s.top = s.load s.top

theorem inside_enter (s : State t) (size : Nat) (fl : Option Flags) :
    s.Inside { s.enter size with flags := fl } where
  base_eq := by
    show (s.enter size).registers (.pointer .bp) = _
    rw [enter, registers_assign, if_neg (by decide), registers_assign, if_pos rfl]
  load_base := load_push_top s s.base
  load_top := load_push_of_sub_eq (e := 0) (sub_self _) (by
    have := t.two_pow_le
    have := t.wordBytes_eq
    omega)

/-- Inside a function, registers other than the frame pointer can change. -/
theorem Inside.of_memory_eq {v : State t} (h : s.Inside u) (hb : v.base = u.base)
    (hm : v.memory = u.memory) : s.Inside v := by
  have hl (a : t.Word) : v.load a = u.load a := by rw [load, load, hm]
  exact ⟨hb.trans h.base_eq, (hl _).trans h.load_base, (hl _).trans h.load_top⟩

theorem inside_enter_assign (s : State t) (size : Nat) (fl : Option Flags) {f : Family}
    (hb : f ≠ .pointer .bp) (v : t.Word) :
    s.Inside (State.assign { s.enter size with flags := fl } f v) :=
  (s.inside_enter size fl).of_memory_eq
    (by rw [base, registers_assign, if_neg hb.symm]; rfl) rfl

theorem top_enter_assign (s : State t) (size : Nat) (fl : Option Flags) {f : Family}
    (hs : f ≠ .pointer .sp) (v : t.Word) :
    (State.assign { s.enter size with flags := fl } f v).top =
      s.top - t.wordStep - BitVec.ofNat _ size := by
  rw [top, registers_assign, if_neg hs.symm]
  exact (s.registers_enter ..).trans (if_pos rfl)

/-- Inside a function, words that stand apart from the two that a return needs can change. -/
theorem Inside.store {a v : t.Word} (h : s.Inside u)
    (hb : Memory.Apart t.wordBytes (s.top - t.wordStep) a)
    (ht : Memory.Apart t.wordBytes s.top a) : s.Inside (u.store a v) where
  base_eq := h.base_eq
  load_base := (load_store_of_apart hb).trans h.load_base
  load_top := (load_store_of_apart ht).trans h.load_top

theorem registers_leave_drop (u : State t) (f : Family) :
    u.leave.drop.registers f =
      if f = .pointer .sp then u.base + t.wordStep + t.wordStep
      else if f = .pointer .bp then u.load u.base else u.registers f := by
  by_cases hs : f = .pointer .sp
  · simp [leave, drop, top, base, hs]
  · by_cases hb : f = .pointer .bp <;> simp [leave, drop, hs, hb]

theorem Inside.registers_leave_drop (h : s.Inside u) (f : Family) :
    u.leave.drop.registers f =
      if f = .pointer .sp then s.top + t.wordStep
      else if f = .pointer .bp then s.base else u.registers f := by
  rw [State.registers_leave_drop, h.base_eq, h.load_base, sub_add_cancel]

end State

namespace Placement

variable {t : Target} {code pre post : List Instruction} {s u : State t}

/-- From inside a function an epilogue returns to where the function was called from. -/
theorem returns_epilogue (p : Placement t code) (hc : code = pre ++ Target.epilogue ++ post)
    (h : s.Inside u) : p.Returns ⟨p.address pre.length, u⟩ ⟨s.load s.top, u.leave.drop⟩ := by
  have hc' : code = pre ++ [.bare .leave] ++ .bare .ret :: post := by
    simpa [Target.epilogue] using hc
  have ht : u.leave.top = u.base + t.wordStep := by simp [State.leave, State.drop, State.top]
  rw [h.base_eq, sub_add_cancel] at ht
  have hr := p.returns_ret hc' u.leave
  rw [ht, show u.leave.load s.top = s.load s.top from h.load_top] at hr
  exact (p.reaches_of_effects hc' (State.effects_cons rfl)).returns hr

end Placement

end AttAsm

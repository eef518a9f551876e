import AttAsm.Convention
import AttAsm.Proofs.Memory
import Mathlib.Logic.Function.Basic

/-!
# The machine

The state of a processor of a target, and what the instructions without a jump do to it. A word is a
bit vector of the target's size, so arithmetic wraps around.

`State.effect` is `none` where no meaning is given: for operations that are left out, and for
operands that are not integer registers of the target at 32 bits or at its word size. Flags that an
operation leaves undefined are `none` as well. Instructions stand outside of memory.
-/

namespace AttAsm

/-! ## Words -/

namespace Target

/-- A word of the target. -/
abbrev Word (t : Target) : Type := BitVec t.wordWidth.bits

/-- The size of a word, as the distance between two words in memory. -/
def wordStep (t : Target) : t.Word := BitVec.ofNat _ t.wordBytes

theorem bits_eq (t : Target) : t.wordWidth.bits = 8 * t.wordBytes := by
  obtain ⟨_, _ | _⟩ := t <;> simp [wordBytes, wordWidth, Width.bytes, Width.bits]

theorem wordBytes_eq (t : Target) : t.wordBytes = 4 ∨ t.wordBytes = 8 := by
  obtain ⟨_, _ | _⟩ := t <;> simp [wordBytes, wordWidth, Width.bytes, Width.bits]

theorem two_pow_bits (t : Target) : 2 ^ t.wordWidth.bits = 256 ^ t.wordBytes := by
  rw [bits_eq, pow_mul]; rfl

/-- Numbers far beyond the size of a frame are addresses. -/
theorem two_pow_le (t : Target) : 2 ^ 32 ≤ 2 ^ t.wordWidth.bits :=
  Nat.pow_le_pow_right (by decide) (by have := t.bits_eq; have := t.wordBytes_eq; omega)

/-- An integer register that instructions of the target can use, at 32 bits or as a whole. -/
def operates (t : Target) (r : Register) : Bool :=
  (r.width == .long || r.width == t.wordWidth) &&
    match r.family with
    | .general _ | .pointer _ => true
    | .numbered _ => t.arch == .bits64
    | _ => false

/-- An integer register of a whole word. -/
def operatesWhole (t : Target) (r : Register) : Bool := t.operates r && r.width == t.wordWidth

end Target

/-! ## Flags -/

/-- The flags that signed comparisons read. -/
structure Flags where
  zero : Bool
  sign : Bool
  overflow : Bool

namespace Flags

variable {n : Nat}

/-- The flags after taking `y` from `x`. -/
def ofSub (x y : BitVec n) : Flags := ⟨x - y == 0, (x - y).msb, x.ssubOverflow y⟩

/-- The condition of `jle`. -/
def lessOrEqual (f : Flags) : Bool := f.zero || f.sign != f.overflow

/-- After a comparison the condition is the signed order. -/
theorem lessOrEqual_ofSub (x y : BitVec n) :
    (ofSub x y).lessOrEqual = decide (x.toInt ≤ y.toInt) := by
  have hz : (x - y == 0) = (x == y) := by
    rw [Bool.eq_iff_iff, beq_iff_eq, beq_iff_eq]
    exact sub_eq_zero
  have hs : ((x - y).msb != x.ssubOverflow y) = x.slt y := by
    rw [BitVec.slt_eq_decide]
    cases ho : x.ssubOverflow y with
    | true =>
      rw [BitVec.ssubOverflow_eq, BitVec.msb_eq_toInt (x := x), BitVec.msb_eq_toInt (x := y)] at ho
      cases hd : (x - y).msb <;> simp [hd] at ho ⊢ <;> omega
    | false =>
      rw [BitVec.msb_eq_toInt, BitVec.toInt_sub_of_not_ssubOverflow (by simp [ho])]
      simp
  rw [lessOrEqual, ofSub, hz, hs, ← BitVec.sle_eq_decide, BitVec.sle_eq_slt_or_eq, Bool.or_comm]

end Flags

/-! ## States -/

/-- The families that a state has a word for: a high byte is part of its letter's word, and the
instruction pointer is kept apart. -/
def Family.isStored : Family → Bool
  | .general _ | .pointer _ | .numbered _ | .vector _ => true
  | .instruction | .highByte _ => false

/-- Registers, memory and flags. -/
structure State (t : Target) where
  registers : Family → t.Word
  memory : Memory t.wordWidth.bits
  /-- Undefined after some operations. -/
  flags : Option Flags

namespace State

variable {t : Target}

/-- The word of the stack pointer. -/
def top (s : State t) : t.Word := s.registers (.pointer .sp)

/-- The word of the frame pointer. -/
def base (s : State t) : t.Word := s.registers (.pointer .bp)

/-- Sets the word of a family. -/
def assign (s : State t) (f : Family) (v : t.Word) : State t :=
  { s with registers := Function.update s.registers f v }

/-- The value of a register, with zeros above it. -/
def get (s : State t) (r : Register) : t.Word :=
  ((s.registers r.family).setWidth r.width.bits).setWidth _

/-- Sets a register and clears what is above it. -/
def put (s : State t) (r : Register) (v : t.Word) : State t :=
  s.assign r.family ((v.setWidth r.width.bits).setWidth _)

/-- The flags after taking `v` from a register. -/
def compare (s : State t) (r : Register) (v : Int) : Flags :=
  .ofSub ((s.registers r.family).setWidth r.width.bits) (BitVec.ofInt _ v)

/-- The word at an address. -/
def load (s : State t) (a : t.Word) : t.Word := BitVec.ofNat _ (s.memory.number t.wordBytes a)

/-- Writes a word to an address. -/
def store (s : State t) (a v : t.Word) : State t :=
  { s with memory := s.memory.write a t.wordBytes v.toNat }

/-- Puts a word on the stack. -/
def push (s : State t) (v : t.Word) : State t :=
  (s.assign (.pointer .sp) (s.top - t.wordStep)).store (s.top - t.wordStep) v

/-- Takes a word off the stack. -/
def drop (s : State t) : State t := s.assign (.pointer .sp) (s.top + t.wordStep)

/-- Takes the stack down to the frame pointer and restores that. -/
def leave (s : State t) : State t :=
  ((s.assign (.pointer .sp) s.base).assign (.pointer .bp) (s.load s.base)).drop

/-- What an instruction that control runs through does. -/
def effect (s : State t) : Instruction → Option (State t)
  | .label _ _ _ => some s
  | .bare .leave => some s.leave
  | .unary .push r => if t.operatesWhole r then some (s.push (s.get r)) else none
  | .unary .dec r =>
    if t.operates r then some { s.put r (s.get r - 1) with flags := s.compare r 1 } else none
  | .binary .mov l r _ =>
    if t.operates l && t.operates r && l.width == r.width then some (s.put r (s.get l)) else none
  | .binary .imul l r _ =>
    if t.operates l && t.operates r && l.width == r.width then
      some { s.put r (s.get r * s.get l) with flags := none }
    else none
  | .immediate .mov v r => if t.operates r then some (s.put r (BitVec.ofInt _ v)) else none
  | .immediate .sub v r =>
    if t.operates r then
      some { s.put r (s.get r - BitVec.ofInt _ v) with flags := s.compare r v }
    else none
  | .immediate .cmp v r => if t.operates r then some { s with flags := s.compare r v } else none
  | .load .mov v b r =>
    if t.operatesWhole b && t.operatesWhole r then
      some (s.put r (s.load (s.get b + BitVec.ofInt _ v)))
    else none
  | .store .mov r v b =>
    if t.operatesWhole r && t.operatesWhole b then
      some (s.store (s.get b + BitVec.ofInt _ v) (s.get r))
    else none
  | _ => none

/-- What a list of such instructions does. -/
def effects (s : State t) (is : List Instruction) : Option (State t) := is.foldlM effect s

theorem effects_nil (s : State t) : s.effects [] = some s := rfl

theorem effects_cons {s u : State t} {i : Instruction} {is : List Instruction}
    (h : s.effect i = some u) : s.effects (i :: is) = u.effects is := by
  rw [effects, List.foldlM_cons, h]
  rfl

theorem effects_append {s u : State t} {is js : List Instruction} (h : s.effects is = some u) :
    s.effects (is ++ js) = u.effects js := by
  rw [effects, List.foldlM_append, ← effects, h]
  rfl

end State

/-! ## Whole registers -/

/-- `r` is the register of family `f` that holds a whole word. -/
structure Target.Whole (t : Target) (r : Register) (f : Family) : Prop where
  family : r.family = f
  width : r.width = t.wordWidth
  operates : t.operates r = true

namespace Target

variable {t : Target} {r : Register} {f : Family}

theorem Whole.operatesWhole (h : t.Whole r f) : t.operatesWhole r = true := by
  rw [Target.operatesWhole, h.operates, h.width, beq_self_eq_true]; rfl

theorem whole_stackPointer (t : Target) : t.Whole t.stackPointer (.pointer .sp) := by
  obtain ⟨_, _ | _⟩ := t <;> exact ⟨rfl, rfl, rfl⟩

theorem whole_framePointer (t : Target) : t.Whole t.framePointer (.pointer .bp) := by
  obtain ⟨_, _ | _⟩ := t <;> exact ⟨rfl, rfl, rfl⟩

theorem whole_returnRegister (t : Target) : t.Whole t.returnRegister (.general .a) := by
  obtain ⟨_, _ | _⟩ := t <;> exact ⟨rfl, rfl, rfl⟩

end Target

namespace State

variable {t : Target} {r : Register} {f : Family}

theorem get_of_whole (h : t.Whole r f) (s : State t) : s.get r = s.registers f := by
  rw [get, h.family, h.width, BitVec.setWidth_eq, BitVec.setWidth_eq]

theorem get_stackPointer (s : State t) : s.get t.stackPointer = s.top :=
  get_of_whole t.whole_stackPointer s

theorem get_framePointer (s : State t) : s.get t.framePointer = s.base :=
  get_of_whole t.whole_framePointer s

theorem put_of_whole (h : t.Whole r f) (s : State t) (v : t.Word) : s.put r v = s.assign f v := by
  rw [put, h.family, h.width, BitVec.setWidth_eq, BitVec.setWidth_eq]

theorem compare_of_whole (h : t.Whole r f) (s : State t) (v : Int) :
    s.compare r v = .ofSub (s.registers f) (BitVec.ofInt _ v) := by
  rw [compare, h.family, h.width, BitVec.setWidth_eq]

/-! ## Effects on whole registers -/

variable {l : Register} {g : Family} {w : Width} {v : Int}

theorem effect_push (h : t.Whole r f) (s : State t) :
    s.effect (.unary .push r) = some (s.push (s.registers f)) := by
  exact (if_pos h.operatesWhole).trans (by rw [get_of_whole h])

theorem effect_dec (h : t.Whole r f) (s : State t) :
    s.effect (.unary .dec r) = some { s.assign f (s.registers f - 1) with
      flags := some (.ofSub (s.registers f) (BitVec.ofInt _ 1)) } := by
  exact (if_pos h.operates).trans (by rw [get_of_whole h, put_of_whole h, compare_of_whole h])

theorem operates_pair (hl : t.Whole l g) (hr : t.Whole r f) :
    (t.operates l && t.operates r && l.width == r.width) = true := by
  rw [hl.operates, hr.operates, hl.width, hr.width, beq_self_eq_true]; rfl

theorem effect_mov (hl : t.Whole l g) (hr : t.Whole r f) (s : State t) :
    s.effect (.binary .mov l r w) = some (s.assign f (s.registers g)) := by
  exact (if_pos (operates_pair hl hr)).trans (by rw [get_of_whole hl, put_of_whole hr])

theorem effect_imul (hl : t.Whole l g) (hr : t.Whole r f) (s : State t) :
    s.effect (.binary .imul l r w) =
      some { s.assign f (s.registers f * s.registers g) with flags := none } := by
  exact (if_pos (operates_pair hl hr)).trans (by
    rw [get_of_whole hl, get_of_whole hr, put_of_whole hr])

theorem effect_mov_immediate (h : t.Whole r f) (s : State t) :
    s.effect (.immediate .mov v r) = some (s.assign f (BitVec.ofInt _ v)) := by
  exact (if_pos h.operates).trans (by rw [put_of_whole h])

theorem effect_sub_immediate (h : t.Whole r f) (s : State t) :
    s.effect (.immediate .sub v r) = some { s.assign f (s.registers f - BitVec.ofInt _ v) with
      flags := some (.ofSub (s.registers f) (BitVec.ofInt _ v)) } := by
  exact (if_pos h.operates).trans (by rw [get_of_whole h, put_of_whole h, compare_of_whole h])

theorem effect_cmp_immediate (h : t.Whole r f) (s : State t) :
    s.effect (.immediate .cmp v r) =
      some { s with flags := some (.ofSub (s.registers f) (BitVec.ofInt _ v)) } := by
  exact (if_pos h.operates).trans (by rw [compare_of_whole h])

theorem effect_load (hb : t.Whole l g) (hr : t.Whole r f) (s : State t) :
    s.effect (.load .mov v l r) =
      some (s.assign f (s.load (s.registers g + BitVec.ofInt _ v))) := by
  have h : (t.operatesWhole l && t.operatesWhole r) = true := by
    rw [hb.operatesWhole, hr.operatesWhole]; rfl
  exact (if_pos h).trans (by rw [get_of_whole hb, put_of_whole hr])

theorem effect_store (hb : t.Whole l g) (hr : t.Whole r f) (s : State t) :
    s.effect (.store .mov r v l) =
      some (s.store (s.registers g + BitVec.ofInt _ v) (s.registers f)) := by
  have h : (t.operatesWhole r && t.operatesWhole l) = true := by
    rw [hb.operatesWhole, hr.operatesWhole]; rfl
  exact (if_pos h).trans (by rw [get_of_whole hb, get_of_whole hr])

/-! ## Reading a changed state -/

@[simp] theorem registers_assign (s : State t) (v : t.Word) :
    (s.assign f v).registers g = if g = f then v else s.registers g :=
  Function.update_apply ..

theorem registers_push (s : State t) (v : t.Word) :
    (s.push v).registers g = if g = .pointer .sp then s.top - t.wordStep else s.registers g :=
  registers_assign ..

theorem top_push (s : State t) (v : t.Word) : (s.push v).top = s.top - t.wordStep := by
  rw [top, registers_push, if_pos rfl]

theorem wordBytes_le (t : Target) : t.wordBytes ≤ 2 ^ t.wordWidth.bits := by
  have := t.two_pow_le
  have := t.wordBytes_eq
  omega

theorem load_store (s : State t) (a v : t.Word) : (s.store a v).load a = v := by
  rw [load, store, Memory.number_write _ _ (wordBytes_le t), ← t.two_pow_bits,
    Nat.mod_eq_of_lt v.isLt, BitVec.ofNat_toNat, BitVec.setWidth_eq]

theorem load_store_of_apart {s : State t} {a b v : t.Word} (h : Memory.Apart t.wordBytes b a) :
    (s.store a v).load b = s.load b := by
  rw [load, store, Memory.number_write_of_apart h (wordBytes_le t)]
  rfl

theorem load_push_top (s : State t) (v : t.Word) : (s.push v).load (s.top - t.wordStep) = v :=
  load_store ..

/-- A push does not touch what stands above the stack. -/
theorem load_push_of_sub_eq {s : State t} {v a : t.Word} {e : Nat}
    (he : a - s.top = BitVec.ofNat _ e) (hn : e + 2 * t.wordBytes ≤ 2 ^ t.wordWidth.bits) :
    (s.push v).load a = s.load a := by
  have hd : a - (s.top - t.wordStep) = BitVec.ofNat _ (e + t.wordBytes) := by
    rw [BitVec.ofNat_add, ← he, sub_sub_eq_add_sub, add_sub_right_comm]
    rfl
  exact load_store_of_apart (Memory.apart_of_sub_eq hd (by omega) (by omega)).symm

end State

end AttAsm

import AttAsm.Proofs.Frames
import Mathlib.Order.Bounds.Basic

/-!
# Sizes of frames

A frame is the least one that has room for the locals and the shadow space and keeps calls aligned
(`Target.isLeast_frameSize`), so frames grow with their locals (`Target.monotone_frameSize`).
Numbers of 64 bits are enough to compute it (`Target.frameSize64?_eq`), and signed ones to hold it
(`Target.quad_holds_frameSize`). Only on 32-bit targets are there locals whose frame does not fit the
immediate of a prologue (`Target.holds_frameSize_iff`).

Main statement: `Target.prologue_takes_least_frame`.
-/

namespace AttAsm

namespace Target

/-! ## The least frame -/

theorem isLeast_roundUp (n : Nat) {m : Nat} (hm : 0 < m) :
    IsLeast {k | n ≤ k ∧ m ∣ k} (roundUp n m) := by
  refine ⟨⟨le_roundUp hm, Nat.dvd_mul_left ..⟩, ?_⟩
  rintro k ⟨hn, q, rfl⟩
  have hq : (n + m - 1) / m < q + 1 := Nat.div_lt_of_lt_mul (by rw [Nat.mul_add]; omega)
  rw [roundUp, Nat.mul_comm m q]
  exact Nat.mul_le_mul_right m (Nat.le_of_lt_succ hq)

/-- No smaller frame has room for the locals and the shadow space and keeps calls aligned. -/
theorem isLeast_frameSize (t : Target) (locals : Nat) :
    IsLeast {n | locals + t.shadowSpace ≤ n ∧ t.stackAlignment ∣ n + 2 * t.wordBytes}
      (t.frameSize locals) := by
  refine ⟨⟨t.le_frameSize locals, t.stackAlignment_dvd_frameSize locals⟩, ?_⟩
  rintro n ⟨hn, hd⟩
  have hr : roundUp (locals + t.shadowSpace + t.linkBytes) t.stackAlignment ≤ n + t.linkBytes :=
    (isLeast_roundUp _ t.stackAlignment_pos).2 ⟨Nat.add_le_add_right hn _, hd⟩
  rw [frameSize]
  omega

/-- The frame for more locals has room for fewer. -/
theorem monotone_frameSize (t : Target) : Monotone t.frameSize := by
  intro l m h
  obtain ⟨hroom, hdvd⟩ := (t.isLeast_frameSize m).1
  exact (t.isLeast_frameSize l).2 ⟨(Nat.add_le_add_right h _).trans hroom, hdvd⟩

/-! ## Numbers of 64 bits -/

/-- A number that 64 bits can hold. -/
def checked64 (n : Nat) : Option Nat := if n < 2 ^ 64 then some n else none

theorem checked64_of_lt {n : Nat} (h : n < 2 ^ 64) : checked64 n = some n := if_pos h

/-- The blocks of `m` bytes that hold `n` bytes: whole ones, and one for a rest. -/
def blocks (n m : Nat) : Nat := n / m + if n % m = 0 then 0 else 1

/-- The size of a frame in numbers of 64 bits, if none of them is too large or below zero on the
way. -/
def frameSize64? (t : Target) (locals : UInt32) : Option Nat := do
  let link ← checked64 (2 * t.wordBytes)
  let room ← checked64 (locals.toNat + t.shadowSpace)
  let needed ← checked64 (room + link)
  let count ← checked64 (blocks needed t.stackAlignment)
  let rounded ← checked64 (count * t.stackAlignment)
  if link ≤ rounded then some (rounded - link) else none

theorem blocks_le (n m : Nat) : blocks n m ≤ n + 1 := by
  have h := Nat.div_le_self n m
  unfold blocks
  split_ifs <;> omega

theorem stackAlignment_eq (t : Target) : t.stackAlignment = 4 ∨ t.stackAlignment = 16 := by
  obtain ⟨_ | _ | _, _ | _⟩ := t <;> decide

theorem blocks_mul_stackAlignment (t : Target) (n : Nat) :
    blocks n t.stackAlignment * t.stackAlignment = roundUp n t.stackAlignment := by
  unfold blocks roundUp
  rcases t.stackAlignment_eq with h | h <;> rw [h] <;> split_ifs <;> omega

theorem frameSize64?_eq (t : Target) (locals : UInt32) :
    t.frameSize64? locals = some (t.frameSize locals.toNat) := by
  have hlocals := locals.toNat_lt
  have hshadow := t.shadowSpace_le
  have hword := t.wordBytes_eq
  have halign := t.stackAlignment_le
  have hblocks := blocks_le (locals.toNat + t.shadowSpace + 2 * t.wordBytes) t.stackAlignment
  have hle := le_roundUp (n := locals.toNat + t.shadowSpace + 2 * t.wordBytes) t.stackAlignment_pos
  have hlt := roundUp_lt (n := locals.toNat + t.shadowSpace + 2 * t.wordBytes) t.stackAlignment_pos
  simp only [frameSize64?, Option.bind_eq_bind]
  rw [checked64_of_lt (by omega), Option.bind_some, checked64_of_lt (by omega), Option.bind_some,
    checked64_of_lt (by omega), Option.bind_some, checked64_of_lt (by omega), Option.bind_some,
    blocks_mul_stackAlignment, checked64_of_lt (by omega), Option.bind_some, if_pos (by omega)]
  rfl

/-! ## Frames that an immediate can hold -/

/-- Frames up to an aligned size are those of the locals that have room in it. -/
theorem frameSize_le_iff {t : Target} {locals m : Nat}
    (h : t.stackAlignment ∣ m + 2 * t.wordBytes) :
    t.frameSize locals ≤ m ↔ locals + t.shadowSpace ≤ m :=
  ⟨(t.le_frameSize locals).trans, fun hm => (t.isLeast_frameSize locals).2 ⟨hm, h⟩⟩

/-- The largest frame of a 32-bit target that is a signed number of 32 bits. -/
def largestFrame (os : Os) : Nat := if os = .macos then 2 ^ 31 - 8 else 2 ^ 31 - 4

theorem frameSize_lt_iff (os : Os) (locals : Nat) :
    frameSize ⟨os, .bits32⟩ locals < 2 ^ 31 ↔ locals ≤ largestFrame os := by
  have hd := stackAlignment_dvd_frameSize ⟨os, .bits32⟩ locals
  -- No aligned frame lies between the largest one and the bound.
  have hlast : frameSize ⟨os, .bits32⟩ locals < 2 ^ 31 ↔
      frameSize ⟨os, .bits32⟩ locals ≤ largestFrame os := by
    cases os with
    | macos =>
      change 16 ∣ _ + 8 at hd
      change _ ↔ _ ≤ 2 ^ 31 - 8
      omega
    | _ =>
      change 4 ∣ _ + 8 at hd
      change _ ↔ _ ≤ 2 ^ 31 - 4
      omega
  have hm : stackAlignment ⟨os, .bits32⟩ ∣ largestFrame os + 2 * wordBytes ⟨os, .bits32⟩ := by
    cases os <;> decide
  rw [hlast, frameSize_le_iff hm]
  exact Iff.rfl

/-- No frame of a number of locals of 32 bits leaves the signed numbers of 64 bits. -/
theorem quad_holds_frameSize (t : Target) (locals : UInt32) :
    Width.quad.holds (t.frameSize locals.toNat) = true := by
  have hlocals := locals.toNat_lt
  have hf := t.frameSize_lt locals.toNat
  have hs := t.shadowSpace_le
  have ha := t.stackAlignment_le
  rw [Width.holds_natCast_iff]
  change t.frameSize locals.toNat < 2 ^ 63
  omega

theorem holds_frameSize_iff (t : Target) (locals : UInt32) :
    t.wordWidth.holds (t.frameSize locals.toNat) = true ↔
      ¬ (t.arch = .bits32 ∧ largestFrame t.os < locals.toNat) := by
  rw [Width.holds_natCast_iff]
  obtain ⟨os, _ | _⟩ := t
  · exact (frameSize_lt_iff os locals.toNat).trans (by simp)
  · exact iff_of_true (Width.holds_natCast_iff.1 (quad_holds_frameSize _ locals)) (by simp)

/-- Zero fits every width. -/
theorem frameSize_pos_of_not_holds {t : Target} {w : Width} {locals : Nat}
    (h : ¬ w.holds (t.frameSize locals) = true) : 0 < t.frameSize locals := by
  rw [Width.holds_natCast_iff] at h
  exact Nat.pos_of_ne_zero fun h0 => h (h0 ▸ Nat.two_pow_pos _)

/-- A frame that is no signed number of 64 bits is refused as too large. -/
theorem result_prologue_of_not_addressable {t : Target} {locals : Nat}
    (h : ¬ Width.quad.holds (t.frameSize locals) = true) :
    (t.prologue locals).result = .error (.frameTooLarge (t.frameSize locals)) := by
  simp only [prologue, t.mkBinary_pointers, Logged.lift_ok_bind,
    if_pos (frameSize_pos_of_not_holds h), addressable_of_not_holds h, Logged.lift_error_bind]

/-- A frame that is too large for the immediates of the stack pointer is refused. -/
theorem result_prologue_of_not_holds {t : Target} {locals : Nat}
    (hq : Width.quad.holds (t.frameSize locals) = true)
    (h : ¬ t.wordWidth.holds (t.frameSize locals) = true) :
    (t.prologue locals).result =
      .error (.immediateOutOfRange (t.frameSize locals) t.wordWidth t.wordWidth.low
        t.wordWidth.high) := by
  have hi : Instruction.mkImmediate .sub (t.frameSize locals) t.stackPointer =
      .error (.immediateOutOfRange (t.frameSize locals) t.wordWidth t.wordWidth.low
        t.wordWidth.high) := by
    rw [← t.whole_stackPointer.width] at h ⊢
    exact Instruction.checkImmediate_bind_of_not_holds h _
  simp only [prologue, t.mkBinary_pointers, Logged.lift_ok_bind,
    if_pos (frameSize_pos_of_not_holds h), addressable_of_holds hq, hi, Logged.lift_error_bind]

/-- **A prologue takes the least frame, and is refused where that cannot be encoded.** The size of
the frame is computed without leaving 64 bits, is the least one that has room for the locals and the
shadow space and is aligned, and grows with the locals. On 64-bit targets all frames can be encoded;
on 32-bit targets those of signed numbers of 32 bits can, and the others are refused as out of range,
never as too large for 64 bits. -/
theorem prologue_takes_least_frame (t : Target) (locals : UInt32) :
    let f := t.frameSize locals.toNat
    t.frameSize64? locals = some f ∧
    IsLeast {n | locals.toNat + t.shadowSpace ≤ n ∧ t.stackAlignment ∣ n + 2 * t.wordBytes} f ∧
    (∀ more : UInt32, locals ≤ more → f ≤ t.frameSize more.toNat) ∧
    (∀ bytes, (t.prologue locals.toNat).result ≠ .error (.frameTooLarge bytes)) ∧
    (t.prologue locals.toNat).result =
      if t.arch = .bits32 ∧ largestFrame t.os < locals.toNat then
        .error (.immediateOutOfRange f .long (-2 ^ 31) (2 ^ 31 - 1))
      else if 0 < f then
        .ok [.unary .push t.framePointer, .binary .mov t.stackPointer t.framePointer t.wordWidth,
          .immediate .sub f t.stackPointer]
      else
        .ok [.unary .push t.framePointer, .binary .mov t.stackPointer t.framePointer t.wordWidth] := by
  intro f
  refine ⟨t.frameSize64?_eq locals, t.isLeast_frameSize locals.toNat,
    fun more h => t.monotone_frameSize (UInt32.le_iff_toNat_le.1 h), ?_⟩
  have hh := t.holds_frameSize_iff locals
  by_cases hc : t.arch = .bits32 ∧ largestFrame t.os < locals.toNat
  · have hw : t.wordWidth = .long := by rw [wordWidth, hc.1]
    rw [if_pos hc, result_prologue_of_not_holds (t.quad_holds_frameSize locals)
      (mt hh.1 (not_not_intro hc)), hw]
    refine ⟨fun bytes h => ?_, rfl⟩
    cases h
  · rw [if_neg hc, result_prologue (hh.2 hc), frame]
    refine ⟨fun bytes h => ?_, ?_⟩
    · cases h
    · split_ifs <;> rfl

end Target

end AttAsm
